import Stylesheet.CodePoint
import Stylesheet.Encoding.Detection

/-!
# Character encodings

A registry of encodings: those that there are decoders for here, some more that are known by name
only, and the labels of all of these. It is one registry among others. Detection goes by any, and
what is shown of it holds of any.
-/
namespace Stylesheet

inductive Encoding where
  | utf8
  | utf16be
  | utf16le
  | windows1252
  /-- Bytes outside ASCII stand for private-use code points. -/
  | userDefined
  /-- What encodings that are not safe to decode are replaced by. -/
  | replacement
  | shiftJis
  | gbk
  | gb18030
  | big5
  | eucJp
  | eucKr
  | iso2022Jp
  | iso88592
  | koi8r
  | windows1251
  | macintosh
  deriving DecidableEq, Repr, Inhabited

namespace Encoding

/-- Every encoding once. -/
def all : List Encoding :=
  [utf8, utf16be, utf16le, windows1252, userDefined, replacement, shiftJis, gbk, gb18030, big5,
   eucJp, eucKr, iso2022Jp, iso88592, koi8r, windows1251, macintosh]

def name : Encoding → String
  | utf8 => "UTF-8"
  | utf16be => "UTF-16BE"
  | utf16le => "UTF-16LE"
  | windows1252 => "windows-1252"
  | userDefined => "x-user-defined"
  | replacement => "replacement"
  | shiftJis => "Shift_JIS"
  | gbk => "GBK"
  | gb18030 => "gb18030"
  | big5 => "Big5"
  | eucJp => "EUC-JP"
  | eucKr => "EUC-KR"
  | iso2022Jp => "ISO-2022-JP"
  | iso88592 => "ISO-8859-2"
  | koi8r => "KOI8-R"
  | windows1251 => "windows-1251"
  | macintosh => "macintosh"

instance : ToString Encoding := ⟨name⟩

/-- The labels of an encoding, in lower case. -/
def labels : Encoding → List String
  | utf8 =>
    ["utf-8", "utf8", "unicode-1-1-utf-8", "unicode11utf8", "unicode20utf8", "x-unicode20utf8"]
  | utf16be => ["utf-16be", "unicodefffe"]
  | utf16le =>
    ["utf-16le", "utf-16", "csunicode", "iso-10646-ucs-2", "ucs-2", "unicode", "unicodefeff"]
  | windows1252 =>
    ["windows-1252", "ansi_x3.4-1968", "ascii", "cp1252", "cp819", "csisolatin1", "ibm819",
     "iso-8859-1", "iso-ir-100", "iso8859-1", "iso88591", "iso_8859-1", "iso_8859-1:1987", "l1",
     "latin1", "us-ascii", "x-cp1252"]
  | userDefined => ["x-user-defined"]
  | replacement =>
    ["replacement", "csiso2022kr", "hz-gb-2312", "iso-2022-cn", "iso-2022-cn-ext", "iso-2022-kr"]
  | shiftJis =>
    ["shift_jis", "csshiftjis", "ms932", "ms_kanji", "shift-jis", "sjis", "windows-31j", "x-sjis"]
  | gbk =>
    ["gbk", "chinese", "csgb2312", "csiso58gb231280", "gb2312", "gb_2312", "gb_2312-80",
     "iso-ir-58", "x-gbk"]
  | gb18030 => ["gb18030"]
  | big5 => ["big5", "big5-hkscs", "cn-big5", "csbig5", "x-x-big5"]
  | eucJp => ["euc-jp", "cseucpkdfmtjapanese", "x-euc-jp"]
  | eucKr =>
    ["euc-kr", "cseuckr", "csksc56011987", "iso-ir-149", "korean", "ks_c_5601-1987",
     "ks_c_5601-1989", "ksc5601", "ksc_5601", "windows-949"]
  | iso2022Jp => ["iso-2022-jp", "csiso2022jp"]
  | iso88592 =>
    ["iso-8859-2", "csisolatin2", "iso-ir-101", "iso8859-2", "iso88592", "iso_8859-2",
     "iso_8859-2:1987", "l2", "latin2"]
  | koi8r => ["koi8-r", "cskoi8r", "koi", "koi8", "koi8_r"]
  | windows1251 => ["windows-1251", "cp1251", "x-cp1251"]
  | macintosh => ["macintosh", "csmacintosh", "mac", "x-mac-roman"]

/-- A label as it is compared: without whitespace around it, in lower case. -/
def normalizeLabel (label : String) : String :=
  let front := label.toList.dropWhile CodePoint.isWhitespace
  let both := (front.reverse.dropWhile CodePoint.isWhitespace).reverse
  String.ofList (both.map Char.toLower)

/-- The encoding that a label names. -/
def ofLabel? (label : String) : Option Encoding :=
  all.find? fun e => e.labels.contains (normalizeLabel label)

/-- The encodings and labels that are known here. -/
def known : Registry Encoding := ⟨.utf8, .utf16be, .utf16le, ofLabel?⟩

/-- The encoding of a style sheet, among those that are known here. -/
def detect (bytes : List UInt8) (protocolLabel? : Option String)
    (environment? : Option Encoding) : Encoding :=
  known.detect bytes protocolLabel? environment?

end Encoding
end Stylesheet

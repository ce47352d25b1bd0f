/-!
# Single-byte encodings

Encodings whose every byte is a code point.
-/
namespace Stylesheet.Encoding

/-- The code points of the bytes 0x80 to 0x9F in windows-1252. -/
def windows1252Specials : List Char :=
  ['\u20AC', '\u0081', '\u201A', '\u0192', '\u201E', '\u2026', '\u2020', '\u2021',
   '\u02C6', '\u2030', '\u0160', '\u2039', '\u0152', '\u008D', '\u017D', '\u008F',
   '\u0090', '\u2018', '\u2019', '\u201C', '\u201D', '\u2022', '\u2013', '\u2014',
   '\u02DC', '\u2122', '\u0161', '\u203A', '\u0153', '\u009D', '\u017E', '\u0178']

/-- All other bytes of windows-1252 are the code points of the same number. -/
def windows1252Char (b : UInt8) : Char :=
  if b < 0x80 then Char.ofNat b.toNat
  else windows1252Specials.getD (b.toNat - 0x80) (Char.ofNat b.toNat)

/-- The bytes outside ASCII are the code points from U+F780 on. -/
def userDefinedChar (b : UInt8) : Char :=
  if b < 0x80 then Char.ofNat b.toNat else Char.ofNat (0xF780 + (b.toNat - 0x80))

end Stylesheet.Encoding

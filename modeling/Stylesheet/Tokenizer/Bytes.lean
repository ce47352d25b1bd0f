import Stylesheet.DecodedStream
import Stylesheet.Tokenizer

/-!
# Tokens from bytes

Sources and tokenizers over a style sheet that is decoded while it is read. They can fail to
start, since the encoding is detected from the first bytes.
-/
namespace Stylesheet

namespace Encoding.Library

variable {ε δ : Type} [DecidableEq ε]

/-- A source over the bytes of a reader. -/
def source (L : Library ε δ) (reader : ByteReader) (protocolLabel? : Option String)
    (environment? : Option ε) : Except ReadFailure (BufferedSource L.Stream) :=
  (Stream.ofReader L reader protocolLabel? environment?).map .ofStream

/-- A tokenizer over the bytes of a reader. -/
def tokenizer (L : Library ε δ) (reader : ByteReader) (protocolLabel? : Option String)
    (environment? : Option ε) : Except ReadFailure (Tokenizer (BufferedSource L.Stream)) :=
  (L.source reader protocolLabel? environment?).map .ofSource

end Encoding.Library

/-- A source over the bytes of a reader, decoded with this library. -/
def BufferedSource.ofReader (reader : ByteReader) (protocolLabel? : Option String)
    (environment? : Option Encoding) : Except ReadFailure (BufferedSource DecodedStream) :=
  Encoding.library.source reader protocolLabel? environment?

/-- A tokenizer over the bytes of a reader, decoded with this library. -/
def Tokenizer.ofReader (reader : ByteReader) (protocolLabel? : Option String)
    (environment? : Option Encoding) :
    Except ReadFailure (Tokenizer (BufferedSource DecodedStream)) :=
  Encoding.library.tokenizer reader protocolLabel? environment?

end Stylesheet

import EdgeAudit.Source.Position
import EdgeAudit.Text.Utf8

namespace EdgeAudit

open Text

def utf8Bytes (text : List Char) : List UInt8 :=
  text.flatMap String.utf8EncodeChar

def utf8Length (text : List Char) : Nat :=
  (utf8Bytes text).length

def asciiOnly (text : List Char) : Bool :=
  utf8Length text == text.length

def charOffset (text : List Char) (bytes : Int) : Int :=
  if asciiOnly text then bytes
  else (decodeUtf8Leniently ((utf8Bytes text).take (sliceEnd (utf8Length text) bytes))).length

def textBetween (text : List Char) (start stop : Nat) : List Char :=
  decodeUtf8Replacing (((utf8Bytes text).take stop).drop start)

end EdgeAudit

import ElmCodec.Text.Unprintable

/-!
# Quoted text in messages

Texts of the user stand in messages between double quotes. Quotes, backslashes
and the usual control characters have short escapes, other characters without a
glyph of their own are given by code point, and the rest stands as it is.
-/

namespace ElmCodec.Text

def codePoint (c : Char) : List Char := '\\' :: 'u' :: '{' :: Nat.toDigits 16 c.toNat ++ ['}']

def quoteChar (c : Char) : List Char :=
  if c = '"' then ['\\', '"']
  else if c = '\\' then ['\\', '\\']
  else if c = '\n' then ['\\', 'n']
  else if c = '\r' then ['\\', 'r']
  else if c = '\t' then ['\\', 't']
  else if c.toNat = 0 then ['\\', '0']
  else if isUnprintable c then codePoint c
  else [c]

def quote (text : String) : String :=
  String.ofList ('"' :: text.toList.flatMap quoteChar ++ ['"'])

end ElmCodec.Text

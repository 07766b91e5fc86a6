/-!
# Elm string literals

Control characters never stand raw in a literal, so a literal is one line, and
quotes and backslashes are escaped, so it ends where it should.
-/

namespace ElmCodec

/-- C0 controls, DEL and C1 controls. -/
def isControl (c : Char) : Bool := c.toNat < 0x20 || (0x7F ≤ c.toNat && c.toNat ≤ 0x9F)

/-- Four hexadecimal digits or more, in upper case. -/
def hexCode (code : Nat) : List Char :=
  let digits := (Nat.toDigits 16 code).map Char.toUpper
  List.replicate (4 - digits.length) '0' ++ digits

def literalChar (c : Char) : List Char :=
  if c = '"' then ['\\', '"']
  else if c = '\\' then ['\\', '\\']
  else if c = '\n' then ['\\', 'n']
  else if c = '\r' then ['\\', 'r']
  else if c = '\t' then ['\\', 't']
  else if isControl c then '\\' :: 'u' :: '{' :: hexCode c.toNat ++ ['}']
  else [c]

def literal (text : String) : String :=
  String.ofList ('"' :: text.toList.flatMap literalChar ++ ['"'])

end ElmCodec

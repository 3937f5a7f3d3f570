import ImportAlias.Json.Basic

/-! Printing JSON on one line, or indented by two blanks. -/
namespace ImportAlias.Json

/-- A character inside a string: quotes, backslashes and control characters are escaped. -/
def escapeChar (c : Char) : Text :=
  if c = '"' then "\\\"".toList
  else if c = '\\' then "\\\\".toList
  else if c = '\x08' then "\\b".toList
  else if c = '\t' then "\\t".toList
  else if c = '\n' then "\\n".toList
  else if c = '\x0c' then "\\f".toList
  else if c = '\r' then "\\r".toList
  else if c.toNat < 0x20 then
    "\\u00".toList ++ [Nat.digitChar (c.toNat / 16), Nat.digitChar (c.toNat % 16)]
  else [c]

def quoted (t : Text) : Text := '"' :: t.flatMap escapeChar ++ ['"']

def ofNat (n : Nat) : Json := number (Nat.toDigits 10 n)

mutual

def compact : Json → Text
  | null => "null".toList
  | bool b => (if b then "true" else "false").toList
  | number t => t
  | string t => quoted t
  | array items => '[' :: compactItems items ++ [']']
  | object members => '\x7b' :: compactMembers members ++ ['\x7d']

def compactItems : List Json → Text
  | [] => []
  | [v] => compact v
  | v :: rest => compact v ++ ',' :: compactItems rest

def compactMembers : List (Text × Json) → Text
  | [] => []
  | [(k, v)] => quoted k ++ ':' :: compact v
  | (k, v) :: rest => quoted k ++ ':' :: (compact v ++ ',' :: compactMembers rest)

end

def lineStart (depth : Nat) : Text := '\n' :: List.replicate (2 * depth) ' '

mutual

/-- A value with each item and member on a line of its own. -/
def indented (depth : Nat) : Json → Text
  | null => "null".toList
  | bool b => (if b then "true" else "false").toList
  | number t => t
  | string t => quoted t
  | array [] => "[]".toList
  | array items => '[' :: indentedItems (depth + 1) items ++ lineStart depth ++ [']']
  | object [] => "\x7b\x7d".toList
  | object members => '\x7b' :: indentedMembers (depth + 1) members ++ lineStart depth ++ ['\x7d']

def indentedItems (depth : Nat) : List Json → Text
  | [] => []
  | [v] => lineStart depth ++ indented depth v
  | v :: rest => lineStart depth ++ indented depth v ++ ',' :: indentedItems depth rest

def indentedMembers (depth : Nat) : List (Text × Json) → Text
  | [] => []
  | [(k, v)] => lineStart depth ++ quoted k ++ ':' :: ' ' :: indented depth v
  | (k, v) :: rest =>
    lineStart depth ++ quoted k ++ ':' :: ' ' ::
      (indented depth v ++ ',' :: indentedMembers depth rest)

end

def pretty (v : Json) : Text := v.indented 0

end ImportAlias.Json

import LayeredParse.Toml.Scalar
/-!
# Reader — documents from their written form

`Toml.parse?` reads a document line by line: headers open tables, and keys with values add to the table opened last.
Arrays, and tables in braces, may go over several lines.
-/
namespace LayeredParse
namespace Toml

/-- Drops spaces and tabs. -/
def dropSpace (s : List Char) : List Char :=
  s.dropWhile fun c => c == ' ' || c == '\t'

/-- Drops the rest of a line, which may have a comment in it but nothing else. -/
def endLine (s : List Char) : Option (List Char) :=
  let rest := match dropSpace s with
    | '#' :: comment => comment.dropWhile isTextChar
    | rest => rest
  match rest with
  | [] => some []
  | '\n' :: rest => some rest
  | '\r' :: '\n' :: rest => some rest
  | _ => none

/-- Drops blanks, line breaks and comments; `inComment` tells whether a comment has begun. -/
def dropLines (inComment : Bool) : List Char → Option (List Char)
  | [] => some []
  | '\n' :: rest => dropLines false rest
  | '\r' :: '\n' :: rest => dropLines false rest
  | c :: rest =>
    if inComment then if isTextChar c then dropLines true rest else none
    else if c = ' ' ∨ c = '\t' then dropLines false rest
    else if c = '#' then dropLines true rest
    else some (c :: rest)

/-- Characters of keys without quotes. -/
def isKeyChar (c : Char) : Bool :=
  c.isAlphanum || c == '_' || c == '-'

/-- Reads a key without dots. -/
def readKeyPart : List Char → Reading String
  | '"' :: rest => (readBasic rest).map fun (key, rest) => (String.ofList key, rest)
  | '\'' :: rest => (readLiteral rest).map fun (key, rest) => (String.ofList key, rest)
  | s =>
    let key := s.takeWhile isKeyChar
    if key = [] then none else some (String.ofList key, s.drop key.length)

/-- Reads a key: the parts before the last dot, and the last part. -/
def readKey : (steps : Nat) → List Char → Reading (List String × String)
  | 0, _ => none
  | steps + 1, s =>
    (readKeyPart s).bind fun (part, rest) =>
      match dropSpace rest with
      | '.' :: more => (readKey steps (dropSpace more)).map fun ((path, key), rest) => ((part :: path, key), rest)
      | rest => some (([], part), rest)

/-- How deep arrays and tables in braces may nest. -/
def nestingLimit : Nat := 80

mutual

/-- Reads a value, with room for arrays and tables in braces to nest `room` deep. -/
def readValue (room : Nat) : (steps : Nat) → List Char → Reading Value
  | 0, _ => none
  | steps + 1, s =>
    match s with
    | '"' :: _ | '\'' :: _ => (readString s).map fun (cs, rest) => (.string (String.ofList cs), rest)
    | '[' :: rest => if room = 0 then none else readItems (room - 1) steps [] rest
    | '\x7b' :: rest => if room = 0 then none else readPairs (room - 1) steps (.table .inline []) rest
    | s => readBare s

/-- Reads the items of an array up to the closing bracket; `before` are those read so far, the newest first. -/
def readItems (room : Nat) : (steps : Nat) → (before : List Value) → List Char → Reading Value
  | 0, _, _ => none
  | steps + 1, before, s =>
    match dropLines false s with
    | none | some [] => none
    | some (']' :: rest) => some (.array before.reverse, rest)
    | some s =>
      (readValue room steps s).bind fun (v, rest) =>
        match dropLines false rest with
        | some (',' :: rest) => readItems room steps (v :: before) rest
        | some (']' :: rest) => some (.array (v :: before).reverse, rest)
        | _ => none

/-- Reads the pairs of a table in braces up to the closing one; `before` is the table so far. -/
def readPairs (room : Nat) : (steps : Nat) → (before : Value) → List Char → Reading Value
  | 0, _, _ => none
  | steps + 1, before, s =>
    match dropLines false s with
    | none | some [] => none
    | some ('\x7d' :: rest) => some (before, rest)
    | some s =>
      (readKey s.length s).bind fun ((path, key), rest) =>
        match rest with
        | '=' :: rest =>
          (readValue room steps (dropSpace rest)).bind fun (v, rest) =>
            (before.addPair path key v).bind fun after =>
              match dropLines false rest with
              | some (',' :: rest) => readPairs room steps after rest
              | some ('\x7d' :: rest) => some (after, rest)
              | _ => none
        | _ => none

end

/-- Reads a key and a value. -/
def readPair (s : List Char) : Reading ((List String × String) × Value) :=
  (readKey s.length s).bind fun (key, rest) =>
    match rest with
    | '=' :: rest =>
      let rest := dropSpace rest
      (readValue nestingLimit (2 * rest.length + 2) rest).map fun (v, rest) => ((key, v), rest)
    | _ => none

/-- Reads the key of a header after its opening bracket. -/
def readHeader (s : List Char) : Reading (List String × String) :=
  let s := dropSpace s
  readKey s.length s

/-- Reads a document line by line, in at most `steps` lines.  `current` is the path of the table opened last, and `doc`
the document so far. -/
def readDocument : (steps : Nat) → (current : List String) → (doc : Value) → List Char → Option Value
  | 0, _, _, _ => none
  | steps + 1, current, doc, s =>
    match dropSpace s with
    | [] => some doc
    | '[' :: '[' :: rest =>
      match readHeader rest with
      | some ((path, key), ']' :: ']' :: rest) =>
        (Value.change false (·.openElement key) path doc).bind fun doc =>
          (endLine rest).bind fun rest => readDocument steps (path ++ [key]) doc rest
      | _ => none
    | '[' :: rest =>
      match readHeader rest with
      | some ((path, key), ']' :: rest) =>
        (Value.change false (·.openTable key) path doc).bind fun doc =>
          (endLine rest).bind fun rest => readDocument steps (path ++ [key]) doc rest
      | _ => none
    | c :: rest =>
      if c = '\n' ∨ c = '\r' ∨ c = '#' then
        (endLine (c :: rest)).bind fun rest => readDocument steps current doc rest
      else
        (readPair (c :: rest)).bind fun (((path, key), v), rest) =>
          (Value.change false (·.addPair path key v) current doc).bind fun doc =>
            (endLine rest).bind fun rest => readDocument steps current doc rest

/-- Drops a byte order mark. -/
def dropMark : List Char → List Char
  | '\ufeff' :: rest => rest
  | rest => rest

/-- The document that a text writes, if it writes one. -/
def parse? (s : List Char) : Option Value :=
  readDocument (s.length + 1) [] .blank (dropMark s)

end Toml
end LayeredParse

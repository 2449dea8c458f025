import Dangling.Text.Blank

/-!
# Library — Callee

Callee paths as compilers print them carry generic arguments and trait qualifications.  `normalize`
reduces a path to its plain segments: `<X as Trait>::m` is `X::m`, `<[T]>::as_ptr` is
`slice::as_ptr`, and `Vec::<u8>::new` is `Vec::new`.
-/

namespace Dangling.Callee

/-- The characters outside every `<…>`; `depth` counts the brackets open so far. -/
def eraseGenerics : (depth : Nat) → List Char → List Char
  | _, [] => []
  | depth, '<' :: rest => eraseGenerics (depth + 1) rest
  | depth + 1, '>' :: rest => eraseGenerics depth rest
  | 0, c :: rest => c :: eraseGenerics 0 rest
  | depth + 1, _ :: rest => eraseGenerics (depth + 1) rest

/-- Splits a text that starts with `<` at the bracket closing it. -/
def splitQualified (acc : List Char) : (depth : Nat) → List Char → Option (List Char × List Char)
  | _, [] => none
  | depth, '<' :: rest => splitQualified ('<' :: acc) (depth + 1) rest
  | 1, '>' :: rest => some (acc.reverse, rest)
  | depth, '>' :: rest => splitQualified ('>' :: acc) (depth - 1) rest
  | depth, c :: rest => splitQualified (c :: acc) depth rest

/-- The part of a qualification before ` as `, outside every bracket. -/
def selfType : (depth : Nat) → List Char → List Char
  | _, [] => []
  | depth, '<' :: rest => '<' :: selfType (depth + 1) rest
  | depth, '>' :: rest => '>' :: selfType (depth - 1) rest
  | depth, c :: rest =>
    if depth = 0 && [' ', 'a', 's', ' '].isPrefixOf (c :: rest) then []
    else c :: selfType depth rest

/-- The text without the blanks at its ends. -/
def strip (cs : List Char) : List Char := Text.trim Text.isBlank cs

/-- The path segment that stands for the type of a qualification: slices and raw pointers have
segments of their own, and a borrowed type counts as the type. -/
def segment (self : List Char) : List Char :=
  let self := strip ((strip self).dropWhile (· == '&'))
  let self := if ['m', 'u', 't', ' '].isPrefixOf self then strip (self.drop 4) else self
  if ['['].isPrefixOf self then "slice".toList
  else if "*mut".toList.isPrefixOf self then "mut_ptr".toList
  else if "*const".toList.isPrefixOf self then "const_ptr".toList
  else strip (eraseGenerics 0 self)

/-- The path with a leading `<X as Trait>` replaced by the segment of `X`. -/
def resolveQualified (cs : List Char) : List Char :=
  match cs with
  | '<' :: _ =>
    match splitQualified [] 0 cs with
    | some (inner, rest) => segment (selfType 0 (inner.drop 1)) ++ rest
    | none => cs
  | _ => cs

/-- The path with runs of separators made one separator; `inRun` tells that one was just written. -/
def collapse : (inRun : Bool) → List Char → List Char
  | false, ':' :: ':' :: rest => ':' :: ':' :: collapse true rest
  | true, ':' :: ':' :: rest => collapse true rest
  | _, c :: rest => c :: collapse false rest
  | _, [] => []

/-- The plain path of a callee, on characters. -/
def normalizeChars (cs : List Char) : List Char :=
  let path := eraseGenerics 0 (resolveQualified (strip cs))
  Text.trim (· == ':') (collapse false (path.filter (· != ' ')))

/-- The plain path of a callee. -/
def normalize (path : String) : String := String.ofList (normalizeChars path.toList)

/-- The segments of a path. -/
def segments (cs : List Char) : List (List Char) :=
  go [] cs
where
  /-- The segments of `cs`, the first one after the characters of `acc`. -/
  go (acc : List Char) : List Char → List (List Char)
    | [] => [acc.reverse]
    | ':' :: ':' :: rest => acc.reverse :: go [] rest
    | c :: rest => go (c :: acc) rest

/-- Segments joined to a path. -/
def join (ss : List (List Char)) : String := "::".intercalate (ss.map String.ofList)

/-- The trailing paths of a list of segments, the longest first. -/
def suffixes : List (List Char) → List String
  | [] => []
  | s :: rest => join (s :: rest) :: suffixes rest

end Dangling.Callee

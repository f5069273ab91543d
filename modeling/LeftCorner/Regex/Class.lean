import LeftCorner.Regex.Escape

/-!
# Bracketed classes

A class such as `[a-z_&&[^q]]`: characters, ranges, escapes, named classes and classes in brackets, joined
by `&&`, `--` and `~~`, which bind alike and group to the left. A first `]` and hyphens at the start stand
for themselves.
-/

namespace LeftCorner.Regex

/-- A set together with how deeply the text that wrote it nests. -/
structure NestedSet where
  set : CharSet
  depth : Nat

inductive SetOp where
  | inter
  | diff
  | symmDiff

def SetOp.apply : SetOp → CharSet → CharSet → CharSet
  | inter => .inter
  | diff => .diff
  | symmDiff => .symmDiff

/-- A class as far as it has been read: what stands before the last operator, and the members after it,
last first. -/
structure ClassDraft where
  before : Option (NestedSet × SetOp)
  members : List NestedSet

namespace ClassDraft

def push (d : ClassDraft) (m : NestedSet) : ClassDraft := { d with members := m :: d.members }

/-- The members since the last operator, as one set. -/
def gathered (d : ClassDraft) : NestedSet :=
  match d.members with
  | [m] => m
  | [] => ⟨.none, 0⟩
  | ms => ⟨.ofList (ms.reverse.map (·.set)), 1 + (ms.map (·.depth)).foldl max 0⟩

def result (f : Flags) (d : ClassDraft) : NestedSet :=
  match d.before with
  | none => d.gathered
  | some (left, op) =>
    ⟨op.apply (f.close left.set) (f.close d.gathered.set), 1 + max left.depth d.gathered.depth⟩

/-- Reads an operator: what was read so far is its left operand. -/
def operator (f : Flags) (op : SetOp) (d : ClassDraft) : ClassDraft := ⟨some (d.result f, op), []⟩

end ClassDraft

namespace Class

/-- The set that a class in brackets has, given what stands between them. -/
def bracketed (f : Flags) (negated : Bool) (inside : NestedSet) : Except Fault NestedSet :=
  if negated then
    (f.complement (f.close inside.set)).map fun set => ⟨set, inside.depth + 1⟩
  else
    .ok ⟨f.close inside.set, inside.depth + 1⟩

/-- A named class such as `[:alpha:]`, read from behind its opening bracket. -/
def named? (s : List Char) : Option (Bool × CharSet × List Char) :=
  match s with
  | ':' :: s =>
    let (negated, s) := match s with
      | '^' :: s => (true, s)
      | s => (false, s)
    match s.dropWhile (· != ':') with
    | ':' :: ']' :: rest =>
      (CharSet.asciiClass? (String.ofList (s.takeWhile (· != ':')))).map fun set => (negated, set, rest)
    | _ => none
  | _ => none

/-- Whether a class is negated, and the members that stand for themselves by their place, read from
behind the opening bracket. -/
def opening (f : Flags) (s : List Char) : Bool × ClassDraft × List Char :=
  let (negated, s) := match f.skip s with
    | '^' :: s => (true, f.skip s)
    | s => (false, s)
  match f.takeWhile (· == '-') s.length s, s with
  | ([], _), ']' :: rest => (negated, ⟨none, [⟨.single ']', 0⟩]⟩, f.skip rest)
  | (hyphens, rest), _ => (negated, ⟨none, hyphens.map fun c => ⟨.single c, 0⟩⟩, rest)

def member (f : Flags) : List Char → Except Fault (Atom × List Char)
  | '\\' :: rest => Escape.read f rest
  | c :: rest => .ok (.literal c, rest)
  | [] => .error .unclosedClass

/-- A character that may be in a class: without Unicode, only one that is a single byte. -/
def checked (f : Flags) (c : Char) : Except Fault Char :=
  if f.unicode || c.toNat < 128 then .ok c else .error .partOfCharacter

def alone (f : Flags) : Atom → Except Fault NestedSet
  | .literal c => (checked f c).map fun c => ⟨.single c, 0⟩
  | .set set => .ok ⟨set, 0⟩
  | .look _ => .error .classMember

def range (f : Flags) : Atom → Atom → Except Fault NestedSet
  | .literal lo, .literal hi => do
    let lo ← checked f lo
    let hi ← checked f hi
    if lo ≤ hi then .ok ⟨.range lo hi, 0⟩ else .error .classRange
  | _, _ => .error .classMember

/-- A member or a range. A hyphen before `]` or another hyphen makes no range. -/
def item (f : Flags) (s : List Char) : Except Fault (NestedSet × List Char) := do
  let (first, rest) ← member f s
  match f.skip rest with
  | '-' :: rest =>
    match f.skip rest with
    | [] => .error .unclosedClass
    | ']' :: _ | '-' :: _ => return (← alone f first, '-' :: rest)
    | rest =>
      let (last, rest) ← member f rest
      return (← range f first last, rest)
  | rest => return (← alone f first, rest)

/-- Reads the rest of a class, up to and with its closing bracket, in at most as many steps as allowed. -/
def body (f : Flags) : Nat → ClassDraft → List Char → Except Fault (NestedSet × List Char)
  | 0, _, _ => .error .unclosedClass
  | n + 1, d, s =>
    match f.skip s with
    | [] => .error .unclosedClass
    | ']' :: rest => .ok (d.result f, rest)
    | '&' :: '&' :: rest => body f n (d.operator f .inter) rest
    | '-' :: '-' :: rest => body f n (d.operator f .diff) rest
    | '~' :: '~' :: rest => body f n (d.operator f .symmDiff) rest
    | '[' :: rest =>
      match named? rest with
      | some (negated, set, rest) => do
        let set ← if negated then f.complement (f.close set) else .ok (f.close set)
        body f n (d.push ⟨set, 0⟩) rest
      | none => do
        let (negated, inner, rest) := opening f rest
        let (inside, rest) ← body f n inner rest
        body f n (d.push (← bracketed f negated inside)) rest
    | s => do
      let (m, rest) ← item f s
      body f n (d.push m) rest

/-- Reads a class from behind its opening bracket. -/
def read (f : Flags) (s : List Char) : Except Fault (NestedSet × List Char) := do
  let (negated, d, rest) := opening f s
  let (inside, rest) ← body f (rest.length + 1) d rest
  return (← bracketed f negated inside, rest)

end Class

end LeftCorner.Regex

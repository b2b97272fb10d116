import LegalRag.Text.Strings

/-!
# Regular expressions

Matching as the `re` module does it, with `re.MULTILINE`, for expressions that are sequences of single
characters, greedy repetitions of a character class, anchors and at most one group.  `run` backtracks: a
repetition first takes all it can and then gives characters back.  `finditer` goes through the text from
left to right; it is meant for expressions that do not match the empty text.
-/

namespace Regex

inductive Atom where
  | one (p : Char → Bool)
  | star (p : Char → Bool)
  | lineStart
  | lineEnd
  | boundary (word : Char → Bool)
  /-- An end of the group. -/
  | mark

/-- What a match leaves of the text, and what was left at each mark. -/
structure Match where
  rest : List Char
  marks : List (List Char)

/-- The ways to take a repetition of `p` from a text, the longest first. -/
def spans (p : Char → Bool) : Option Char → List Char → List (Option Char × List Char)
  | prev, [] => [(prev, [])]
  | prev, c :: s => if p c then spans p (some c) s ++ [(prev, c :: s)] else [(prev, c :: s)]

/-- The first match at the front of a text, `prev` being the character before it. -/
def run : List Atom → Option Char → List Char → Option Match
  | [], _, s => some ⟨s, []⟩
  | .one p :: r, _, s =>
    match s with
    | c :: s => if p c then run r (some c) s else none
    | [] => none
  | .star p :: r, prev, s => (spans p prev s).findSome? fun x => run r x.1 x.2
  | .lineStart :: r, prev, s => if prev = none ∨ prev = some '\n' then run r prev s else none
  | .lineEnd :: r, prev, s => if s.head? = none ∨ s.head? = some '\n' then run r prev s else none
  | .boundary word :: r, prev, s => if prev.any word ≠ s.head?.any word then run r prev s else none
  | .mark :: r, prev, s => (run r prev s).map fun m => { m with marks := s :: m.marks }

/-- `m.group(1)`. -/
def Match.group (m : Match) : List Char :=
  match m.marks with
  | [a, b] => a.take (a.length - b.length)
  | _ => []

/-- `m.start()`, the length of `m.group(0)`, and `m.group(1)`. -/
structure Hit where
  start : Nat
  length : Nat
  group : List Char
  deriving DecidableEq, Repr

/-- The matches from the position `pos` on, once `skip` characters are passed. -/
def hitsFrom (r : List Atom) : Nat → Nat → Option Char → List Char → List Hit
  | _, _, _, [] => []
  | skip + 1, pos, _, c :: s => hitsFrom r skip (pos + 1) (some c) s
  | 0, pos, prev, c :: s =>
    match run r prev (c :: s) with
    | some m =>
      let length := (c :: s).length - m.rest.length
      ⟨pos, length, m.group⟩ :: hitsFrom r (length - 1) (pos + 1) (some c) s
    | none => hitsFrom r 0 (pos + 1) (some c) s

/-- `r.finditer(s)`. -/
def finditer (r : List Atom) (s : List Char) : List Hit := hitsFrom r 0 0 none s

/-- What stands outside the matches from here on. -/
def removeFrom (r : List Atom) : Nat → Option Char → List Char → List Char
  | _, _, [] => []
  | skip + 1, _, c :: s => removeFrom r skip (some c) s
  | 0, prev, c :: s =>
    match run r prev (c :: s) with
    | some m => removeFrom r ((c :: s).length - m.rest.length - 1) (some c) s
    | none => c :: removeFrom r 0 (some c) s

/-- `r.sub("", s)`. -/
def remove (r : List Atom) (s : List Char) : List Char := removeFrom r 0 none s

/-- A literal text. -/
def lit (s : String) : List Atom := s.toList.map fun c => .one (· = c)

/-- One or more characters of a class. -/
def plus (p : Char → Bool) : List Atom := [.one p, .star p]

end Regex

import Tbf.AttributePatterns
import Tbf.Library.Words

/-!
# Sources with attribute specifiers

A source is code with specifiers in between. What the attribute stage has to do with it is told by marked characters;
whether it does so depends on how the specifiers lie on the lines.
-/

namespace Tbf.Attributes
open Text Deletion Nesting

/-- An attribute specifier, from `__attribute__` to the `))` that closes it. -/
structure Specifier where
  gap : Str
  spaces : ∀ c ∈ gap, isSpace c = true
  body : Str
  balanced : Balanced body

def Specifier.text (s : Specifier) : Str := attributeWord ++ (s.gap ++ ("((".toList ++ (s.body ++ close)))

inductive Piece where
  | code (text : Str)
  | newline
  | specifier (s : Specifier)

def Piece.text : Piece → Str
  | code text => text
  | newline => ['\n']
  | specifier s => s.text

/-- A piece of code is as long as it can be, and `__attribute__` is a token of its own. -/
def Piece.Follows : Piece → Piece → Prop
  | code _, code _ => False
  | code text, specifier _ => ∀ c ∈ text.getLast?, isIdentifierChar c = false
  | _, _ => True

/-- A text in which every `__attribute__` begins a specifier, or is inside one. -/
structure Source where
  pieces : List Piece
  code : ∀ text, .code text ∈ pieces → '\n' ∉ text ∧ ¬ attributeWord <:+: text
  apart : pieces.IsChain Piece.Follows

def Source.text (src : Source) : Str := src.pieces.flatMap Piece.text

/-! ### What is to be left -/

/-- A character, and whether it belongs to a specifier. White space belongs to none. -/
structure Marked where
  char : Char
  inSpecifier : Bool
  deriving DecidableEq, Repr

def ofCode (text : Str) : List Marked := text.map fun c => ⟨c, false⟩

def ofSpecifier (text : Str) : List Marked := text.map fun c => ⟨c, !isSpace c⟩

def Piece.marked : Piece → List Marked
  | code text => ofCode text
  | newline => ofCode ['\n']
  | specifier s => ofSpecifier s.text

def Source.marked (src : Source) : List Marked := src.pieces.flatMap Piece.marked

/-- What the stage leaves of the source, with the marks. -/
def Source.kept (src : Source) : List Marked := removeAttributesOf Marked.char ⟨'\n', false⟩ src.marked

def Piece.codeText : Piece → Str
  | code text => text
  | newline => ['\n']
  | specifier _ => [' ']

/-- The source with a blank in place of each specifier. -/
def Source.codeText (src : Source) : Str := src.pieces.flatMap Piece.codeText

/-- Nothing of a specifier is left, and every other token is. -/
structure RemovesSpecifiers (src : Source) : Prop where
  deletes : ∀ c ∈ src.kept, c.inSpecifier = false
  keeps : tokens isIdentifierChar (removeAttributes src.text) = tokens isIdentifierChar src.codeText

instance (src : Source) : Decidable (RemovesSpecifiers src) :=
  decidable_of_iff ((∀ c ∈ src.kept, c.inSpecifier = false) ∧
      tokens isIdentifierChar (removeAttributes src.text) = tokens isIdentifierChar src.codeText)
    ⟨fun both => ⟨both.1, both.2⟩, fun removes => ⟨removes.deletes, removes.keeps⟩⟩

/-! ### The lines of a source -/

/-- A line that is not altogether inside a specifier: the rest of one that began on an earlier line, then code and
specifiers, then the beginning of one that goes on. The newline is at the end of the last piece. -/
structure Parts where
  tail : Str
  code : Str
  specifiers : List (Specifier × Str)
  head : Str

inductive Line where
  | inside (text : Str)
  | parts (p : Parts)

/-- The lines on which a specifier goes on. -/
def continued (first : Parts) (others : List Line) : Str → List Str → List Line
  | last, [] => .parts { first with tail := last } :: others
  | text, next :: rest => .inside (text ++ ['\n']) :: continued first others next rest

/-- The first line, and the others. -/
def piecesLines : List Piece → Parts × List Line
  | [] => (⟨[], ['\n'], [], []⟩, [])
  | .code text :: pieces =>
    let later := piecesLines pieces
    ({ later.1 with code := text ++ later.1.code }, later.2)
  | .newline :: pieces =>
    let later := piecesLines pieces
    (⟨[], ['\n'], [], []⟩, .parts later.1 :: later.2)
  | .specifier s :: pieces =>
    let later := piecesLines pieces
    match s.text.splitOn '\n' with
    | head :: next :: rest => (⟨[], [], [], head ++ ['\n']⟩, continued later.1 later.2 next rest)
    | _ => (⟨[], [], (s, later.1.code) :: later.1.specifiers, later.1.head⟩, later.2)

def Source.lines (src : Source) : List Line := .parts (piecesLines src.pieces).1 :: (piecesLines src.pieces).2

/-- The line once the specifiers with nothing but names have been taken out, and the white space behind them. -/
def withoutSimple : Str → List (Specifier × Str) → Str × List (Specifier × Str)
  | code, [] => (code, [])
  | code, (s, text) :: specifiers =>
    let later := withoutSimple text specifiers
    if isNameList s.body then (code ++ later.1.dropWhile isSpace, later.2) else (code, (s, later.1) :: later.2)

/-- The specifiers that are left, each with the code behind it. -/
def Parts.others (p : Parts) : List (Specifier × Str) := (withoutSimple p.code p.specifiers).2

/-- The code in front of them, and behind the last. -/
def Parts.codeLeft (p : Parts) : Str :=
  (withoutSimple p.code p.specifiers).1 ++ (p.others.getLast?.map fun x => x.2.dropWhile isSpace).getD []

/-- The lines that the stage gets right. -/
structure Parts.Ok (p : Parts) : Prop where
  /-- Between two specifiers there is white space only. -/
  between : ∀ x ∈ p.others.dropLast, ∀ c ∈ x.2, isSpace c = true
  /-- Behind the last there is no `))`. -/
  behind : ∀ x ∈ p.others.getLast?, NoClose x.2
  /-- A specifier that goes on begins with `__attribute__((` on the line and has no `))` on it, and no other one ends
  on the line that began in front of it. -/
  opens : p.head ≠ [] → (opening id p.head).isSome ∧ ¬ close <:+: p.head ∧ p.tail = []
  /-- Where a specifier ends that began on the line before, no `))` follows in the code. -/
  closes : p.tail ≠ [] → NoClose p.codeLeft

instance (p : Parts) : Decidable p.Ok :=
  decidable_of_iff ((p.others.dropLast.all fun x => x.2.all isSpace) = true ∧ (∀ x ∈ p.others.getLast?, NoClose x.2) ∧
      (p.head ≠ [] → (opening id p.head).isSome ∧ ¬ close <:+: p.head ∧ p.tail = []) ∧ (p.tail ≠ [] → NoClose p.codeLeft))
    ⟨fun ⟨between, behind, opens, closes⟩ => ⟨by simpa using between, behind, opens, closes⟩,
      fun ok => ⟨by simpa using ok.between, ok.behind, ok.opens, ok.closes⟩⟩

def Line.Ok : Line → Prop
  | .inside _ => False
  | .parts p => p.Ok

instance : (l : Line) → Decidable l.Ok
  | .inside _ => instDecidableFalse
  | .parts p => inferInstanceAs (Decidable p.Ok)

/-- In a specifier that goes on over the end of a line there is no other `__attribute__`. -/
def Source.Plain (src : Source) : Prop :=
  ∀ s, .specifier s ∈ src.pieces → '\n' ∈ s.text → ¬ attributeWord <:+: s.body

def Piece.specifier? : Piece → Option Specifier
  | code _ | newline => none
  | specifier s => some s

theorem mem_filterMap_specifier? {pieces : List Piece} {s : Specifier} :
    s ∈ pieces.filterMap Piece.specifier? ↔ .specifier s ∈ pieces := by
  rw [List.mem_filterMap]
  constructor
  · intro found
    obtain ⟨piece, member, same⟩ := found
    cases piece with
    | code _ | newline => cases same
    | specifier s' =>
      obtain rfl := Option.some.inj same
      exact member
  · exact fun member => ⟨_, member, rfl⟩

instance (src : Source) : Decidable src.Plain :=
  decidable_of_iff (∀ s ∈ src.pieces.filterMap Piece.specifier?, '\n' ∈ s.text → ¬ attributeWord <:+: s.body)
    (forall_congr' fun _ => imp_congr_left mem_filterMap_specifier?)

end Tbf.Attributes

import Tbf.AttributePatterns
import Tbf.CommentRemoval
import Tbf.KeywordRewriting
import Tbf.Library.Stages

/-!
# `_rewrite_cproblems`

Each line goes through five stages. The last two give empty structs a member, and take inline assembly out.
-/

namespace Tbf.CProblems
open Text Deletion Stages
open Attributes (literal skipSpace)

/-! ### Empty structs -/

/-- `^\s*struct\s+[a-zA-Z0-9_]+\s*{\s*$` -/
def isStructHead (line : Str) : Bool :=
  (literal id "struct".toList (strip line)).any fun behind =>
    let body := behind.dropWhile isSpace
    let name := body.dropLast.rdropWhile isSpace
    behind.head?.any isSpace && body.getLast? == some '{' && !name.isEmpty && name.all isIdentifierChar

/-- `^\s*}\s*;\s*$` -/
def isStructEnd (line : Str) : Bool :=
  match strip line with
  | c :: rest => c == '}' && rest.getLast? == some ';' && rest.dropLast.all isSpace
  | [] => false

def isBlank (line : Str) : Bool := line.all isSpace

def dummy : Str := "int __dummy; ".toList

/-- The stage remembers `need_struct_body`. -/
def completeStructs : Stage Bool Str Str := fun needStructBody line =>
  if needStructBody && isStructEnd line then (dummy ++ line, false)
  else if needStructBody then (line, isBlank line)
  else (line, isStructHead line)

/-! ### Inline assembly -/

def asmWord : Str := "__asm__".toList

/-- `^\s*__asm__(\s+volatile)?\s*\("`: what is behind it. -/
def asmOpening (line : Str) : Option Str :=
  (literal id asmWord (skipSpace id line)).bind fun behind =>
    let qualified := (literal id "volatile".toList (skipSpace id behind)).filter fun _ => behind.head?.any isSpace
    literal id "(\"".toList (skipSpace id (qualified.getD behind))

/-- `([^"]|\\")*"` in front of what satisfies `ok`. A quote behind a backslash may end the literal as well. -/
def literalThen (ok : Str → Bool) : Bool → Str → Bool
  | _, [] => false
  | escaped, c :: text =>
    if c = '"' then ok text || (escaped && literalThen ok false text) else literalThen ok (c == '\\') text

/-- What is in front of `\s*;\s*$`, where it ends with a parenthesis. -/
def beforeEnd (text : Str) : Option Str :=
  let text := text.rdropWhile isSpace
  let front := text.dropLast.rdropWhile isSpace
  if text.getLast? = some ';' ∧ front.getLast? = some ')' then some front else none

/-- `^\s*__asm__(\s+volatile)?\s*\("([^"]|\\")*"[^;]*$` -/
def opensAsm (line : Str) : Bool :=
  (asmOpening line).any (literalThen (fun text => text.all (· != ';')) false)

/-- `^\s*__asm__(\s+volatile)?\s*\("([^"]|\\")*"[^;]*\)\s*;\s*$` -/
def isAsm (line : Str) : Bool :=
  (asmOpening line).any (literalThen (fun text => (beforeEnd text).any fun front => front.all (· != ';')) false)

/-- `\)\s*;\s*$` -/
def closesAsm (line : Str) : Bool := (beforeEnd line).isSome

/-- `__asm__\s*\(""\s+"[a-zA-Z0-9_]+"\)` -/
def renamingMatch (text : Str) : Option Str :=
  (literal id asmWord text).bind fun behind =>
    (literal id "(\"\"".toList (skipSpace id behind)).bind fun behind =>
      (literal id "\"".toList (skipSpace id behind)).bind fun name =>
        if behind.head?.any isSpace && name.head?.any isIdentifierChar then
          literal id "\")".toList (name.dropWhile isIdentifierChar)
        else none

theorem literal_isSuffix {s text rest : Str} (found : literal id s text = some rest) : rest <:+ text := by
  obtain ⟨front, rfl, -⟩ := Attributes.literal_eq_some.mp found
  exact List.suffix_append front rest

def asmRenaming : Deletion.Pattern Char where
  behind := renamingMatch
  nil := rfl
  cons found := by
    obtain ⟨first, word, found⟩ := Option.bind_eq_some_iff.mp found
    obtain ⟨second, quotes, found⟩ := Option.bind_eq_some_iff.mp found
    obtain ⟨name, quote, found⟩ := Option.bind_eq_some_iff.mp found
    have inside : name <:+ first :=
      (literal_isSuffix quote).trans <| (List.dropWhile_suffix _).trans <| (literal_isSuffix quotes).trans (List.dropWhile_suffix _)
    split at found
    · exact ((literal_isSuffix found).trans (List.dropWhile_suffix _)).trans (inside.trans (Attributes.literal_suffix (by decide) word))
    · cases found

/-- The stage remembers `skip_asm`. -/
def removeAsm : Stage Bool Str Str := fun skipAsm line =>
  let (line, skipAsm) :=
    if opensAsm line then (line, true)
    else if skipAsm && closesAsm line then (['\n'], false)
    else (line, skipAsm)
  (delete asmRenaming (if skipAsm || isAsm line then ['\n'] else line), skipAsm)

/-! ### The loop -/

structure Flags where
  needStructBody : Bool
  skipAsm : Bool
  inAttribute : Bool
  inCxxComment : Bool
  deriving DecidableEq, Repr

/-- The body of the loop, for a line without its newline. -/
def rewriteLine (flags : Flags) (line : Str) : Str × Flags :=
  let (line, inCxxComment) := rewriteComments flags.inCxxComment line
  let (line, inAttribute) := Attributes.rewriteAttributes id flags.inAttribute line
  let line := rewriteKeywords line
  let (line, needStructBody) := completeStructs flags.needStructBody line
  let (line, skipAsm) := removeAsm flags.skipAsm line
  (line, ⟨needStructBody, skipAsm, inAttribute, inCxxComment⟩)

def rewriteFrom : Flags → List Str → Str
  | _, [] => []
  | flags, line :: lines => (rewriteLine flags line).1 ++ rewriteFrom (rewriteLine flags line).2 lines

def rewriteCproblems (content : Str) : Str := rewriteFrom ⟨false, false, false, false⟩ (content.splitOn '\n')

/-! ### One loop, five stages -/

def comments : Stage Bool Str Str := fun inCxxComment line => rewriteComments inCxxComment line

def attributes : Stage Bool Str Str := fun inAttribute line => Attributes.rewriteAttributes id inAttribute line

def keywords : Stage Unit Str Str := each rewriteKeywords

def stages : Stage ((((Bool × Bool) × Unit) × Bool) × Bool) Str Str :=
  (((comments.andThen attributes).andThen keywords).andThen completeStructs).andThen removeAsm

def Flags.memory (flags : Flags) : (((Bool × Bool) × Unit) × Bool) × Bool :=
  ((((flags.inCxxComment, flags.inAttribute), ()), flags.needStructBody), flags.skipAsm)

theorem stages_line (flags : Flags) (line : Str) :
    stages flags.memory line = ((rewriteLine flags line).1, (rewriteLine flags line).2.memory) := by
  simp only [stages, Stage.andThen, comments, attributes, keywords, each, Flags.memory, rewriteLine]

theorem rewriteFrom_eq (flags : Flags) (lines : List Str) :
    rewriteFrom flags lines = (stages.outputs flags.memory lines).flatten := by
  induction lines generalizing flags with
  | nil => rfl
  | cons line lines ih => rw [rewriteFrom, Stage.outputs, List.flatten_cons, stages_line, ih]

/-- The stages, each with a memory of its own. -/
theorem stages_outputs (lines : List Str) :
    stages.outputs (Flags.memory ⟨false, false, false, false⟩) lines =
      removeAsm.outputs false (completeStructs.outputs false ((attributes.outputs false
        (comments.outputs false lines)).map rewriteKeywords)) := by
  rw [stages, Flags.memory]
  simp only [Stage.outputs_andThen, keywords, outputs_each]

/-- The loop, which keeps four flags at once, gives what the stages give one after the other on all lines. -/
theorem rewriteCproblems_stages (content : Str) :
    rewriteCproblems content =
      (removeAsm.outputs false (completeStructs.outputs false ((attributes.outputs false
        (comments.outputs false (content.splitOn '\n'))).map rewriteKeywords))).flatten := by
  rw [rewriteCproblems, rewriteFrom_eq, stages_outputs]

theorem flatten_comments (inCxxComment : Bool) (lines : List Str) :
    (comments.outputs inCxxComment lines).flatten = rewriteLines inCxxComment lines := by
  induction lines generalizing inCxxComment with
  | nil => rfl
  | cons line lines ih => rw [Stage.outputs, List.flatten_cons, ih, rewriteLines, comments]

theorem flatten_attributes (inAttribute : Bool) (lines : List Str) :
    (attributes.outputs inAttribute lines).flatten = Attributes.rewriteAttributeLines id inAttribute lines := by
  induction lines generalizing inAttribute with
  | nil => rfl
  | cons line lines ih => rw [Stage.outputs, List.flatten_cons, ih, Attributes.rewriteAttributeLines, attributes]

/-! ### Which structs get a member -/

/-- How many heads stand behind the last line that is neither a head nor blank, in lines from the last to the first. -/
def openHeads : List Str → Nat
  | [] => 0
  | line :: before => if isStructHead line then openHeads before + 1 else if isBlank line then openHeads before else 0

theorem literal_head {c : Char} {s text rest : Str} (found : literal id (c :: s) text = some rest) : text.head? = some c := by
  obtain ⟨front, rfl, same⟩ := Attributes.literal_eq_some.mp found
  rw [List.map_id] at same
  rw [same]
  rfl

theorem strip_head_of_isStructHead {line : Str} (head : isStructHead line = true) : (strip line).head? = some 's' := by
  rw [isStructHead, Option.any_eq_true] at head
  obtain ⟨behind, found, -⟩ := head
  exact literal_head found

theorem strip_head_of_isStructEnd {line : Str} (closing : isStructEnd line = true) : (strip line).head? = some '}' := by
  unfold isStructEnd at closing
  split at closing
  · rename_i c rest split
    simp only [Bool.and_eq_true, beq_iff_eq] at closing
    rw [split, closing.1.1]
    rfl
  · cases closing

theorem strip_eq_nil_of_isBlank {line : Str} (blank : isBlank line = true) : strip line = [] := by
  have padded : strip (line ++ []) = [] := strip_pad (List.all_eq_true.mp blank) (by simp) (by simp)
  rwa [List.append_nil] at padded

theorem isBlank_eq_false {line : Str} {c : Char} (head : (strip line).head? = some c) : isBlank line = false := by
  by_contra blank
  rw [strip_eq_nil_of_isBlank (by simpa using blank)] at head
  cases head

theorem isStructHead_of_isStructEnd {line : Str} (closing : isStructEnd line = true) : isStructHead line = false := by
  by_contra head
  have first := strip_head_of_isStructHead (by simpa using head)
  rw [strip_head_of_isStructEnd closing] at first
  exact absurd first (by decide)

/-- `need_struct_body` is the parity of the open heads. -/
theorem after_completeStructs (lines : List Str) :
    completeStructs.after false lines = decide (openHeads lines.reverse % 2 = 1) := by
  induction lines using List.reverseRecOn with
  | nil => rfl
  | append_singleton lines line ih =>
    rw [Stage.after_concat, ih, List.reverse_append, List.reverse_singleton, List.singleton_append, openHeads]
    by_cases head : isStructHead line = true
    · have notEnd : isStructEnd line = false := by
        by_contra closing
        simp [isStructHead_of_isStructEnd (by simpa using closing)] at head
      have solid := isBlank_eq_false (strip_head_of_isStructHead head)
      by_cases odd : openHeads lines.reverse % 2 = 1 <;> simp [completeStructs, head, notEnd, solid, odd] <;> omega
    · by_cases blank : isBlank line = true
      · have notEnd : isStructEnd line = false := by
          by_contra closing
          simp [isBlank_eq_false (strip_head_of_isStructEnd (by simpa using closing))] at blank
        by_cases odd : openHeads lines.reverse % 2 = 1 <;> simp [completeStructs, head, notEnd, blank, odd]
      · by_cases odd : openHeads lines.reverse % 2 = 1 <;> by_cases closing : isStructEnd line = true <;>
          simp [completeStructs, head, closing, blank, odd]

/-- A line that ends a struct gets the member in front of it exactly where the number of heads that are open there
is odd; every other line stays. -/
theorem completeStructs_outputs (lines : List Str) (i : Nat) :
    (completeStructs.outputs false lines)[i]? = lines[i]?.map fun line =>
      if isStructEnd line = true ∧ openHeads (lines.take i).reverse % 2 = 1 then dummy ++ line else line := by
  rw [Stage.getElem?_outputs, after_completeStructs]
  refine congrArg (Option.map · lines[i]?) (funext fun line => ?_)
  by_cases odd : openHeads (lines.take i).reverse % 2 = 1 <;> by_cases closing : isStructEnd line = true <;>
    simp [completeStructs, closing, odd]

/-- An empty struct in a struct gets no member. -/
example : completeStructs.outputs false ["struct a \x7b\n".toList, "struct b \x7b\n".toList, "\x7d;\n".toList] =
    ["struct a \x7b\n".toList, "struct b \x7b\n".toList, "\x7d;\n".toList] := by decide

/-! ### Which lines are taken out -/

/-- Some line has opened an assembly statement, and no line behind it has closed it. -/
def InAsm (lines : List Str) : Prop :=
  ∃ front line back, lines = front ++ line :: back ∧ opensAsm line = true ∧ ∀ l ∈ back, closesAsm l = true → opensAsm l = true

theorem removeAsm_memory (skipAsm : Bool) (line : Str) :
    (removeAsm skipAsm line).2 = (opensAsm line || (skipAsm && !closesAsm line)) := by
  unfold removeAsm
  cases opensAsm line <;> cases skipAsm <;> cases closesAsm line <;> rfl

theorem inAsm_concat (lines : List Str) (line : Str) :
    InAsm (lines ++ [line]) ↔ opensAsm line = true ∨ (InAsm lines ∧ closesAsm line = false) := by
  constructor
  · rintro ⟨front, opening, back, split, opens, kept⟩
    rcases List.eq_nil_or_concat' back with rfl | ⟨back, last, rfl⟩
    · obtain ⟨-, same⟩ := List.append_inj' split rfl
      obtain rfl := List.singleton_inj.mp same
      exact .inl opens
    · rw [← List.cons_append, ← List.append_assoc] at split
      obtain ⟨rfl, same⟩ := List.append_inj' split rfl
      obtain rfl := List.singleton_inj.mp same
      by_cases again : opensAsm line = true
      · exact .inl again
      · refine .inr ⟨⟨front, opening, back, rfl, opens, fun l member => kept l (List.mem_append_left _ member)⟩, ?_⟩
        by_contra closes
        exact again (kept line (by simp) (by simpa using closes))
  · rintro (opens | ⟨⟨front, opening, back, rfl, opens, kept⟩, unclosed⟩)
    · exact ⟨lines, line, [], rfl, opens, by simp⟩
    · refine ⟨front, opening, back ++ [line], by simp, opens, fun l member closes => ?_⟩
      rcases List.mem_append.mp member with before | here
      · exact kept l before closes
      · obtain rfl := List.mem_singleton.mp here
        rw [unclosed] at closes
        cases closes

/-- `skip_asm` is set while an assembly statement is open. -/
theorem after_removeAsm (lines : List Str) : removeAsm.after false lines = true ↔ InAsm lines := by
  induction lines using List.reverseRecOn with
  | nil => simp [InAsm]
  | append_singleton lines line ih => simp [Stage.after_concat, removeAsm_memory, inAsm_concat, ← ih]

theorem removeAsm_taken {skipAsm : Bool} {line : Str} (taken : opensAsm line = true ∨ isAsm line = true ∨ skipAsm = true) :
    (removeAsm skipAsm line).1 = ['\n'] := by
  have blank : isAsm ['\n'] = false := by decide
  have alone : delete asmRenaming ['\n'] = ['\n'] := by decide
  unfold removeAsm
  by_cases opens : opensAsm line = true
  · simp [opens, alone]
  · by_cases whole : isAsm line = true
    · cases skipAsm <;> cases closesAsm line <;> simp [opens, whole, blank, alone]
    · obtain rfl : skipAsm = true := by simpa [opens, whole] using taken
      cases closesAsm line <;> simp [opens, whole, blank, alone]

/-- A line is taken out where it is an assembly statement, opens one, or stands in one that is open; every other
line loses its renamings only. -/
theorem removeAsm_outputs (lines : List Str) (i : Nat) {line : Str} (there : lines[i]? = some line) :
    ((opensAsm line = true ∨ isAsm line = true ∨ InAsm (lines.take i)) → (removeAsm.outputs false lines)[i]? = some ['\n']) ∧
      (¬ (opensAsm line = true ∨ isAsm line = true ∨ InAsm (lines.take i)) →
        (removeAsm.outputs false lines)[i]? = some (delete asmRenaming line)) := by
  rw [Stage.getElem?_outputs, there, Option.map_some, ← after_removeAsm]
  constructor
  · intro taken
    rw [removeAsm_taken taken]
  · intro left
    obtain ⟨opens, whole, outside⟩ : opensAsm line = false ∧ isAsm line = false ∧ removeAsm.after false (lines.take i) = false := by
      simpa using left
    simp [removeAsm, opens, whole, outside]

def asmLines : List Str := ["__asm__ volatile (\"nop\"\n".toList, " : : );\n".toList]

theorem removeAsm_outputs_asmLines :
    ((opensAsm " : : );\n".toList = true ∨ isAsm " : : );\n".toList = true ∨ InAsm (asmLines.take 1)) →
        (removeAsm.outputs false asmLines)[1]? = some ['\n']) ∧
      (¬ (opensAsm " : : );\n".toList = true ∨ isAsm " : : );\n".toList = true ∨ InAsm (asmLines.take 1)) →
        (removeAsm.outputs false asmLines)[1]? = some (delete asmRenaming " : : );\n".toList)) :=
  removeAsm_outputs asmLines 1 rfl

/-! ### Plain C -/

/-- Nothing on the line that the first three stages or the last one look for. -/
structure Plain (line : Str) : Prop where
  noComment : ¬ commentStart <:+: line
  noAttribute : ¬ Attributes.attributeWord <:+: line
  noSpelling : ¬ HasSpelling line
  noAsm : ¬ asmWord <:+: line

instance (line : Str) : Decidable (Plain line) :=
  have : Decidable (HasSpelling line) := inferInstanceAs (Decidable (∃ r ∈ keywordReplacements, r.1 <:+: line))
  decidable_of_iff (¬ commentStart <:+: line ∧ ¬ Attributes.attributeWord <:+: line ∧ ¬ HasSpelling line ∧ ¬ asmWord <:+: line)
    ⟨fun ⟨noComment, noAttribute, noSpelling, noAsm⟩ => ⟨noComment, noAttribute, noSpelling, noAsm⟩,
      fun plain => ⟨plain.noComment, plain.noAttribute, plain.noSpelling, plain.noAsm⟩⟩

/-- A word does not go on behind its line. -/
theorem infix_concat_newline {word line : Str} (absent : '\n' ∉ word) (solid : word ≠ []) :
    word <:+: line ++ ['\n'] ↔ word <:+: line := by
  rw [infix_append_cons absent]
  exact or_iff_left fun inside => solid (List.infix_nil.mp inside)

theorem Plain.concat {line : Str} (plain : Plain line) : Plain (line ++ ['\n']) := by
  have noNewline : ∀ r ∈ keywordReplacements, '\n' ∉ r.1 := by decide
  refine ⟨?_, ?_, ?_, ?_⟩
  · rw [infix_concat_newline (by decide) (by decide)]
    exact plain.noComment
  · rw [infix_concat_newline (by decide) (by decide)]
    exact plain.noAttribute
  · rintro ⟨r, member, found⟩
    rw [infix_concat_newline (noNewline r member) (keywordReplacements_solid r member)] at found
    exact plain.noSpelling ⟨r, member, found⟩
  · rw [infix_concat_newline (by decide) (by decide)]
    exact plain.noAsm

theorem comments_plain {line : Str} (plain : Plain line) : comments false line = (line ++ ['\n'], false) := by
  have noStart : beforeFirst line = none := beforeFirst_eq_none.mpr plain.noComment
  simp [comments, rewriteComments, removeClosed_of_no_start plain.noComment, cutOpen, noStart]

theorem attributes_plain {line : Str} (plain : Plain line) : attributes false line = (line, false) := by
  have closed : ∀ back, back <:+ line → Attributes.opening id back = none := fun back inside =>
    Attributes.opening_eq_none fun front => plain.noAttribute ((List.map_id back ▸ front).isInfix.trans inside.isInfix)
  have simple : delete (Attributes.simpleSpecifier id) line = line := delete_eq_self fun back _ inside => by
    show (Attributes.opening id back).bind _ = none
    rw [closed back inside]
    rfl
  have longest : delete (Attributes.longestSpecifier id) line = line := delete_eq_self fun back _ inside => by
    show ((Attributes.opening id back).bind _).map _ = none
    rw [closed back inside]
    rfl
  have search : occurs (Attributes.openingPattern id) line = false := occurs_eq_false fun back _ inside => closed back inside
  simp [attributes, Attributes.rewriteAttributes, simple, longest, search]

theorem removeAsm_plain {line : Str} (noAsm : ¬ asmWord <:+: line) : removeAsm false line = (line, false) := by
  have missing : ∀ text, text <:+ line → literal id asmWord text = none := by
    intro text inside
    by_contra found
    obtain ⟨rest, found⟩ := Option.ne_none_iff_exists'.mp found
    obtain ⟨front, rfl, same⟩ := Attributes.literal_eq_some.mp found
    rw [List.map_id] at same
    exact noAsm (same ▸ (List.prefix_append front rest).isInfix.trans inside.isInfix)
  have noOpening : asmOpening line = none := by
    rw [asmOpening, missing _ (Attributes.skipSpace_suffix line)]
    rfl
  have same : delete asmRenaming line = line := delete_eq_self fun back _ inside => by
    show (literal id asmWord back).bind _ = none
    rw [missing back inside]
    rfl
  simp [removeAsm, opensAsm, isAsm, noOpening, same]

/-- The member has nothing of an assembly statement, nor has it together with the line. -/
theorem noAsm_dummy {line : Str} (noAsm : ¬ asmWord <:+: line) : ¬ asmWord <:+: dummy ++ line := by
  have split : dummy ++ line = "int __dummy;".toList ++ ' ' :: line := rfl
  rw [split, infix_append_cons (by decide), not_or]
  exact ⟨by decide, noAsm⟩

theorem completeStructs_eq_mapIdx (lines : List Str) :
    completeStructs.outputs false lines = lines.mapIdx fun i line =>
      if isStructEnd line = true ∧ openHeads (lines.take i).reverse % 2 = 1 then dummy ++ line else line := by
  apply List.ext_getElem?
  intro i
  rw [completeStructs_outputs, List.getElem?_mapIdx]

theorem stages_plain {lines : List Str} (plain : ∀ line ∈ lines, Plain line) :
    (attributes.outputs false (comments.outputs false lines)).map rewriteKeywords = lines.map (· ++ ['\n']) := by
  have first : comments.outputs false lines = lines.map (· ++ ['\n']) := by
    refine Stage.outputs_eq_map Plain (· = false) ?_ rfl plain
    rintro _ line rfl here
    rw [comments_plain here]
    exact ⟨rfl, rfl⟩
  have ended : ∀ line ∈ lines.map (· ++ ['\n']), Plain line := by
    intro line member
    obtain ⟨front, here, rfl⟩ := List.mem_map.mp member
    exact (plain front here).concat
  have second : attributes.outputs false (lines.map (· ++ ['\n'])) = (lines.map (· ++ ['\n'])).map id := by
    refine Stage.outputs_eq_map Plain (· = false) ?_ rfl ended
    rintro _ line rfl here
    rw [attributes_plain here]
    exact ⟨rfl, rfl⟩
  have third : (lines.map (· ++ ['\n'])).map rewriteKeywords = (lines.map (· ++ ['\n'])).map id :=
    List.map_congr_left fun line member => (rewriteKeywords_eq_self_iff line).mpr (ended line member).noSpelling
  rw [first, second, List.map_id, third, List.map_id]

/-- On lines without comments, attributes, spellings of GCC and assembly, the function puts the member into the
structs that end behind an odd number of open heads, and does nothing else. -/
theorem rewriteCproblems_plain (content : Str) (plain : ∀ line ∈ content.splitOn '\n', Plain line) :
    rewriteCproblems content = (((content.splitOn '\n').map (· ++ ['\n'])).mapIdx fun i line =>
      if isStructEnd line = true ∧ openHeads ((((content.splitOn '\n').map (· ++ ['\n'])).take i).reverse) % 2 = 1 then
        dummy ++ line
      else line).flatten := by
  have ended : ∀ line ∈ (content.splitOn '\n').map (· ++ ['\n']), ¬ asmWord <:+: line := by
    intro line member
    obtain ⟨front, here, rfl⟩ := List.mem_map.mp member
    exact (plain front here).concat.noAsm
  have noAsm : ∀ line ∈ completeStructs.outputs false ((content.splitOn '\n').map (· ++ ['\n'])), ¬ asmWord <:+: line := by
    intro line member
    rw [completeStructs_eq_mapIdx] at member
    obtain ⟨i, bound, rfl⟩ := List.mem_mapIdx.mp member
    have here := ended _ (List.getElem_mem bound)
    split
    · exact noAsm_dummy here
    · exact here
  have last : removeAsm.outputs false (completeStructs.outputs false ((content.splitOn '\n').map (· ++ ['\n']))) =
      (completeStructs.outputs false ((content.splitOn '\n').map (· ++ ['\n']))).map id := by
    refine Stage.outputs_eq_map (fun line => ¬ asmWord <:+: line) (· = false) ?_ rfl noAsm
    rintro _ line rfl here
    rw [removeAsm_plain here]
    exact ⟨rfl, rfl⟩
  rw [rewriteCproblems, rewriteFrom_eq, stages_outputs, stages_plain plain, last, List.map_id, completeStructs_eq_mapIdx]

def emptyStruct : Str := "struct a \x7b\n\n\x7d;".toList

theorem rewriteCproblems_plain_emptyStruct :
    rewriteCproblems emptyStruct = (((emptyStruct.splitOn '\n').map (· ++ ['\n'])).mapIdx fun i line =>
      if isStructEnd line = true ∧ openHeads ((((emptyStruct.splitOn '\n').map (· ++ ['\n'])).take i).reverse) % 2 = 1 then
        dummy ++ line
      else line).flatten :=
  rewriteCproblems_plain emptyStruct (by decide)

end Tbf.CProblems

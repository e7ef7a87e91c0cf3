import Tbf.Library.CTokens
import Tbf.MethodHead

/-!
# The text of a declarator

What `get_type` prints for a type of any depth: how many places for a name are in the text, how many stars,
and whether there is an ellipsis in it.
-/

namespace Tbf
open Text CDeclaration

/-! ### Templates -/

/-- A text with this many places `{}` in it, and no other braces. -/
inductive Holes : Nat → Str → Prop
  | nil : Holes 0 []
  | char {n : Nat} {text : Str} (c : Char) (noOpen : c ≠ '\x7b') (noClose : c ≠ '\x7d') : Holes n text → Holes n (c :: text)
  | hole {n : Nat} {text : Str} : Holes n text → Holes (n + 1) ('\x7b' :: '\x7d' :: text)

theorem Holes.append {m n : Nat} {s t : Str} (left : Holes m s) (right : Holes n t) : Holes (m + n) (s ++ t) := by
  induction left with
  | nil => exact (Nat.zero_add n).symm ▸ right
  | char c noOpen noClose _ ih => exact .char c noOpen noClose ih
  | @hole m _ _ ih => exact (Nat.add_right_comm m 1 n).symm ▸ .hole ih

theorem Holes.of_brace_free {text : Str} (noOpen : '\x7b' ∉ text) (noClose : '\x7d' ∉ text) : Holes 0 text := by
  induction text with
  | nil => exact .nil
  | cons c text ih =>
    exact .char c (fun same => noOpen (same ▸ List.mem_cons_self)) (fun same => noClose (same ▸ List.mem_cons_self))
      (ih (fun member => noOpen (List.mem_cons_of_mem _ member)) fun member => noClose (List.mem_cons_of_mem _ member))

theorem Holes.brace_free {text : Str} (holes : Holes 0 text) : '\x7b' ∉ text ∧ '\x7d' ∉ text := by
  generalize none : 0 = n at holes
  induction holes with
  | nil => exact ⟨nofun, nofun⟩
  | char c noOpen noClose _ ih =>
    obtain ⟨open', close'⟩ := ih none
    exact ⟨List.not_mem_cons_of_ne_of_not_mem (Ne.symm noOpen) open',
      List.not_mem_cons_of_ne_of_not_mem (Ne.symm noClose) close'⟩
  | hole _ _ => cases none

/-- The first place of a text that has one. -/
theorem Holes.split {n : Nat} {text : Str} (holes : Holes (n + 1) text) :
    ∃ front back, text = front ++ '\x7b' :: '\x7d' :: back ∧ Holes 0 front ∧ Holes n back := by
  generalize some : n + 1 = k at holes
  induction holes with
  | nil => cases some
  | char c noOpen noClose _ ih =>
    obtain ⟨front, back, rfl, before, behind⟩ := ih some
    exact ⟨c :: front, back, rfl, .char c noOpen noClose before, behind⟩
  | hole behind _ =>
    obtain rfl := Nat.succ.inj some
    exact ⟨[], _, rfl, .nil, behind⟩

/-- `str.format` with as many values as there are places, or fewer. -/
theorem Holes.format_few {n : Nat} {text : Str} (holes : Holes n text) {args : List Str} (few : args.length < n) :
    format text args = .error .indexError := by
  induction holes generalizing args with
  | nil => cases few
  | @char n text c noOpen noClose _ ih =>
    have step := @format_brace_free [c] (by simpa using Ne.symm noOpen) (by simpa using Ne.symm noClose) text args
    rw [List.singleton_append] at step
    rw [step, ih few]
    rfl
  | @hole n text _ ih =>
    cases args with
    | nil => rfl
    | cons arg args =>
      have step := format_hole arg args text
      change format ('\x7b' :: '\x7d' :: text) _ = _ at step
      rw [step, ih (by simpa using few)]
      rfl

theorem format_one {front back : Str} (before : Holes 0 front) (behind : Holes 0 back) (arg : Str) :
    format (front ++ '\x7b' :: '\x7d' :: back) [arg] = .ok (front ++ arg ++ back) := by
  obtain ⟨noOpen, noClose⟩ := before.brace_free
  obtain ⟨noOpen', noClose'⟩ := behind.brace_free
  have hole := format_hole arg [] back
  have stop := format_brace_free noOpen' noClose' [] []
  rw [List.append_nil] at stop
  change format ('\x7b' :: '\x7d' :: back) _ = _ at hole
  rw [format_brace_free noOpen noClose, hole, stop, format]
  simp [bind, Except.bind, pure, Except.pure]

/-! ### What is counted in a text -/

structure Prints (holes stars : Nat) (ellipsis : Bool) (text : Str) : Prop where
  holes : Holes holes text
  stars : text.count '*' = stars
  dots : ellipsis = true → "...".toList <:+: text
  noDots : ellipsis = false → '.' ∉ text

theorem Prints.append {m n k l : Nat} {d e : Bool} {s t : Str} (left : Prints m k d s) (right : Prints n l e t) :
    Prints (m + n) (k + l) (d || e) (s ++ t) where
  holes := left.holes.append right.holes
  stars := by rw [List.count_append, left.stars, right.stars]
  dots some := by
    rcases (Bool.or_eq_true _ _).mp some with here | there
    · exact (left.dots here).trans (List.prefix_append s t).isInfix
    · exact (right.dots there).trans (List.suffix_append s t).isInfix
  noDots none := by
    obtain ⟨here, there⟩ := Bool.or_eq_false_iff.mp none
    exact List.not_mem_append (left.noDots here) (right.noDots there)

theorem Prints.of_quiet {text : Str} (quiet : ∀ c ∈ text, c ∉ "\x7b\x7d*.".toList) : Prints 0 0 false text where
  holes := .of_brace_free (fun member => quiet _ member (by decide)) fun member => quiet _ member (by decide)
  stars := List.count_eq_zero.mpr fun member => quiet _ member (by decide)
  dots := nofun
  noDots _ := fun member => quiet _ member (by decide)

theorem quiet_word {w : Str} (word : IsWord w) : ∀ c ∈ w, c ∉ "\x7b\x7d*.".toList := by
  intro c member special
  have noWord : ∀ c ∈ "\x7b\x7d*.".toList, isWordChar c = false := by
    have all : ("\x7b\x7d*.".toList.all fun c => !isWordChar c) = true := by decide
    intro c member
    simpa using List.all_eq_true.mp all c member
  have letter := word.2 c member
  rw [noWord c special] at letter
  cases letter

theorem joinWords_append {front back : List Str} (some : front ≠ []) (some' : back ≠ []) :
    joinWords (front ++ back) = joinWords front ++ ' ' :: joinWords back := by
  induction front with
  | nil => exact absurd rfl some
  | cons w front ih =>
    unfold joinWords at ih ⊢
    cases front with
    | nil => rw [List.singleton_append, List.intercalate_cons_of_ne_nil some', List.intercalate_singleton, List.append_assoc,
        List.singleton_append]
    | cons v front =>
      rw [List.cons_append, List.cons_append, List.intercalate_cons_cons, ← List.cons_append, ih (List.cons_ne_nil _ _),
        List.intercalate_cons_cons]
      simp

theorem quiet_joinWords {words : List Str} (all : ∀ w ∈ words, IsWord w) : ∀ c ∈ joinWords words, c ∉ "\x7b\x7d*.".toList := by
  induction words with
  | nil => exact nofun
  | cons w words ih =>
    obtain ⟨here, rest⟩ := List.forall_mem_cons.mp all
    by_cases stop : words = []
    · subst stop
      simpa [joinWords] using quiet_word here
    · have split := joinWords_append (List.cons_ne_nil w []) stop
      rw [List.singleton_append] at split
      rw [split]
      intro c member
      rcases List.mem_append.mp member with member | member
      · exact quiet_word here c (by simpa [joinWords] using member)
      · rcases List.mem_cons.mp member with rfl | member
        · decide
        · exact ih rest c member

/-- Words around the parts change nothing that is counted. -/
theorem Prints.between {n k : Nat} {d : Bool} {front parts back : List Str} (printed : Prints n k d (joinWords parts))
    (some : parts ≠ []) (words : ∀ w ∈ front, IsWord w) (words' : ∀ w ∈ back, IsWord w) :
    Prints n k d (joinWords (front ++ (parts ++ back))) := by
  have blank : Prints 0 0 false [' '] := .of_quiet (by simp)
  have behind : Prints n k d (joinWords (parts ++ back)) := by
    by_cases stop : back = []
    · rwa [stop, List.append_nil]
    · rw [joinWords_append some stop, ← List.singleton_append]
      simpa using printed.append (blank.append (.of_quiet (quiet_joinWords words')))
  by_cases stop : front = []
  · rwa [stop, List.nil_append]
  · rw [joinWords_append stop (by simp [some]), ← List.singleton_append]
    simpa using (Prints.of_quiet (quiet_joinWords words)).append (blank.append behind)

theorem Prints.qualify {n k : Nat} {d : Bool} {parts : List Str} (printed : Prints n k d (joinWords parts)) (some : parts ≠ [])
    {texts : List Str} {quals : Finset Qualifier} (written : QualTexts texts quals) (isDecl : Bool) :
    Prints n k d (Tbf.qualify isDecl texts parts) := by
  have words : ∀ list : List Qualifier, ∀ w ∈ list.map Qualifier.text, IsWord w := by
    intro list w member
    obtain ⟨q, _, rfl⟩ := List.mem_map.mp member
    exact isWord_keyword (qualifier_mem_keywords q)
  rw [qualify_written written]
  refine printed.between some (words _) ?_
  cases isDecl with
  | true => exact nofun
  | false => exact words _

/-! ### What `get_type` prints -/

mutual

/-- The places that `get_type` leaves for names: one for each array and each pointer to a function. -/
def typeHoles : CType → Nat
  | .base _ _ => 0
  | .pointer _ t => typeHoles t
  | .array _ t => typeHoles t + 1
  | .function params result => typeHoles result + 1 + paramsHoles params

def paramsHoles : CParams → Nat
  | .nil | .ellipsis => 0
  | .cons t rest => typeHoles t + paramsHoles rest

end

mutual

/-- Some function in the type is variadic. -/
def hasEllipsis : CType → Bool
  | .base _ _ => false
  | .pointer _ t | .array _ t => hasEllipsis t
  | .function params result => hasEllipsis result || paramsEllipsis params

def paramsEllipsis : CParams → Bool
  | .nil => false
  | .ellipsis => true
  | .cons t rest => hasEllipsis t || paramsEllipsis rest

end

/-- The texts of the parameters in a list, the ellipsis last. -/
inductive ParamTexts : CParams → List Str → Prop
  | nil : ParamTexts .nil []
  | ellipsis : ParamTexts .ellipsis ["...".toList]
  | cons {t : CType} {ps : CParams} {text : Str} {texts : List Str} :
      Prints (typeHoles t) t.stars (hasEllipsis t) text → ParamTexts ps texts → ParamTexts (.cons t ps) (text :: texts)

theorem ParamTexts.joined {ps : CParams} {texts : List Str} (printed : ParamTexts ps texts) :
    Prints (paramsHoles ps) ps.stars (paramsEllipsis ps) (", ".toList.intercalate texts) := by
  induction printed with
  | nil => exact .of_quiet nofun
  | ellipsis => exact ⟨.of_brace_free (by decide) (by decide), by decide, fun _ => List.infix_refl _, nofun⟩
  | @cons t ps text texts here rest ih =>
    by_cases stop : texts = []
    · subst stop
      cases rest
      simpa [paramsHoles, CParams.stars, paramsEllipsis] using here
    · have comma : Prints 0 0 false ", ".toList := .of_quiet (forall_mem_of_all (by decide))
      rw [List.intercalate_cons_of_ne_nil stop, paramsHoles, CParams.stars, paramsEllipsis]
      simpa using (here.append comma).append ih

theorem getType_functionPointer (quals : List Str) (args : Option Node) (type : Node) :
    getType (.ptrDecl quals (.funcDecl args type)) = do
      let result ← getType type
      let params ← paramTypes args
      return qualify false quals [result ++ "(*\x7b\x7d)(".toList ++ ", ".toList.intercalate params ++ [')']] := by
  cases args with
  | none =>
    rw [getType]
    cases getType type with
    | error e => rfl
    | ok result => simp [paramTypes, bind, Except.bind, pure, Except.pure]
  | some args =>
    cases args with
    | paramList params => rfl
    | _ => rfl

theorem exists_param_nodes {ps : CParams} {args : Option Node}
    (listed : (∃ nodes, args = some (.paramList nodes) ∧ nodes ≠ [] ∧ IsParams ps nodes) ∨ args = none ∧ IsParams ps []) :
    ∃ nodes, IsParams ps nodes ∧ paramTypes args = getTypes nodes := by
  rcases listed with ⟨nodes, rfl, _, params⟩ | ⟨rfl, params⟩
  · exact ⟨nodes, params, rfl⟩
  · exact ⟨[], params, rfl⟩

theorem not_funcDecl {t : CType} (object : ∀ params result, t ≠ .function params result) {declname : Option Str} {n : Node}
    (node : IsTypeNode t declname n) : ∀ args type, n ≠ .funcDecl args type := by
  cases t with
  | base quals b =>
    obtain ⟨_, _, rfl, _⟩ := node
    exact nofun
  | pointer quals t =>
    obtain ⟨_, _, rfl, _⟩ := node
    exact nofun
  | array length t =>
    obtain ⟨_, _, rfl, _⟩ := node
    exact nofun
  | function params result => exact absurd rfl (object params result)

/-- A pointer to anything but a function adds a star behind. -/
theorem prints_pointer {quals : Finset Qualifier} {t : CType} (object : ∀ params result, t ≠ .function params result)
    (printed : ∀ {declname n text}, IsTypeNode t declname n → getType n = .ok text →
      Prints (typeHoles t) t.stars (hasEllipsis t) text)
    {declname : Option Str} {n : Node} {text : Str} (node : IsTypeNode (.pointer quals t) declname n)
    (made : getType n = .ok text) : Prints (typeHoles t) (t.stars + 1) (hasEllipsis t) text := by
  obtain ⟨texts, m, rfl, written, target⟩ := node
  rw [getType_ptrDecl (not_funcDecl object target)] at made
  obtain ⟨targetText, targetMade, made⟩ := bind_ok.mp made
  obtain rfl := Except.ok.inj made
  have star : Prints 0 1 false [' ', '*'] := ⟨.of_brace_free (by decide) (by decide), by decide, nofun, fun _ => by decide⟩
  have joined : Prints (typeHoles t) (t.stars + 1) (hasEllipsis t) (joinWords [targetText, ['*']]) := by
    simpa [joinWords, List.intercalate_cons_cons] using (printed target targetMade).append star
  exact joined.qualify (List.cons_ne_nil _ _) written false

/-- The node of a parameter repeats qualifiers, and nothing else. -/
theorem prints_param {t : CType} (printed : ∀ {declname n text}, IsTypeNode t declname n → getType n = .ok text →
      Prints (typeHoles t) t.stars (hasEllipsis t) text)
    {n : Node} (node : IsParamNode t n) {text : Str} (made : getType n = .ok text) :
    Prints (typeHoles t) t.stars (hasEllipsis t) text := by
  obtain ⟨texts, m, written, ⟨name, rfl, target⟩ | ⟨rfl, target⟩⟩ := node
  all_goals
    obtain ⟨typeText, typeMade, made⟩ := bind_ok.mp made
    obtain rfl := Except.ok.inj made
    have joined : Prints (typeHoles t) t.stars (hasEllipsis t) (joinWords [typeText]) := by
      simpa [joinWords] using printed target typeMade
    exact joined.qualify (List.cons_ne_nil _ _) written _

mutual

theorem getType_prints : ∀ {t : CType} {declname : Option Str} {n : Node} {text : Str}, WellNamed t →
    IsTypeNode t declname n → getType n = .ok text → Prints (typeHoles t) t.stars (hasEllipsis t) text
  | .base quals b, _, _, _, named, node, made => by
    obtain ⟨texts, m, rfl, written, base⟩ := node
    rw [getType, getType_base base] at made
    obtain rfl := Except.ok.inj made
    have words : Prints 0 0 false (joinWords [joinWords b.words]) := by
      simpa [joinWords] using Prints.of_quiet (quiet_joinWords fun w member => isWord_of_mem_words named member)
    exact words.qualify (List.cons_ne_nil _ _) written false
  | .pointer quals (.function params result), _, _, _, named, node, made => by
    obtain ⟨texts, m, rfl, written, args, type, rfl, target, listed⟩ := node
    obtain ⟨nodes, paramNodes, same⟩ := exists_param_nodes listed
    rw [getType_functionPointer, same] at made
    obtain ⟨resultText, resultMade, made⟩ := bind_ok.mp made
    obtain ⟨paramTexts, paramsMade, made⟩ := bind_ok.mp made
    obtain rfl := Except.ok.inj made
    have open' : Prints 1 1 false "(*\x7b\x7d)(".toList :=
      ⟨.char _ (by decide) (by decide) (.char _ (by decide) (by decide) (.hole (.of_brace_free (by decide) (by decide)))),
        by decide, nofun, fun _ => by decide⟩
    have close' : Prints 0 0 false [')'] := .of_quiet (forall_mem_of_all (by decide))
    have whole := (((getType_prints named.1 target resultMade).append open').append
      (getTypes_prints named.2 paramNodes paramsMade).joined).append close'
    have counted : Prints (typeHoles (.pointer quals (.function params result))) (CType.pointer quals (.function params result)).stars
        (hasEllipsis (.pointer quals (.function params result)))
        (joinWords [resultText ++ "(*\x7b\x7d)(".toList ++ ", ".toList.intercalate paramTexts ++ [')']]) := by
      have stars : (CType.pointer quals (.function params result)).stars = result.stars + 1 + params.stars + 0 := by
        simp only [CType.stars]
        omega
      rw [stars]
      simpa [joinWords, typeHoles, hasEllipsis] using whole
    exact counted.qualify (List.cons_ne_nil _ _) written false
  | .pointer _ (.base quals b), _, _, _, named, node, made =>
    prints_pointer (by simp) (fun target targetMade => @getType_prints (.base quals b) _ _ _ named target targetMade) node made
  | .pointer _ (.pointer quals t), _, _, _, named, node, made =>
    prints_pointer (by simp) (fun target targetMade => @getType_prints (.pointer quals t) _ _ _ named target targetMade) node made
  | .pointer _ (.array length t), _, _, _, named, node, made =>
    prints_pointer (by simp) (fun target targetMade => @getType_prints (.array length t) _ _ _ named target targetMade) node made
  | .array length t, _, _, _, named, node, made => by
    obtain ⟨m, dim, rfl, _, element⟩ := node
    obtain ⟨elementText, elementMade, made⟩ := bind_ok.mp made
    obtain rfl := Except.ok.inj made
    have place : Prints 1 0 false (' ' :: " \x7b\x7d[]".toList) :=
      ⟨.char _ (by decide) (by decide) (.char _ (by decide) (by decide) (.hole (.of_brace_free (by decide) (by decide)))),
        by decide, nofun, fun _ => by decide⟩
    rw [typeHoles, CType.stars, hasEllipsis]
    simpa [joinWords, List.intercalate_cons_cons] using (@getType_prints t _ _ _ named element elementMade).append place
  | .function params result, _, _, _, _, node, made => by
    obtain ⟨args, type, rfl, _⟩ := node
    rw [getType] at made
    obtain ⟨_, _, made⟩ := bind_ok.mp made
    cases made

theorem getTypes_prints : ∀ {ps : CParams} {nodes : List Node} {texts : List Str}, WellNamedParams ps → IsParams ps nodes →
    getTypes nodes = .ok texts → ParamTexts ps texts
  | .nil, _, _, _, node, made => by
    obtain rfl := node
    obtain rfl := Except.ok.inj made
    exact .nil
  | .ellipsis, _, _, _, node, made => by
    obtain rfl := node
    obtain rfl := Except.ok.inj made
    exact .ellipsis
  | .cons t rest, _, _, named, node, made => by
    obtain ⟨n, more, rfl, later, here⟩ := node
    obtain ⟨paramText, paramMade, made⟩ := bind_ok.mp made
    obtain ⟨laterTexts, laterMade, made⟩ := bind_ok.mp made
    obtain rfl := Except.ok.inj made
    exact .cons (prints_param (fun target targetMade => getType_prints named.1 target targetMade) here paramMade)
      (getTypes_prints named.2 later laterMade)

end

theorem getParam_prints {t : CType} (named : WellNamed t) {n : Node} (node : IsParamNode t n) {text : Str}
    (made : getType n = .ok text) : Prints (typeHoles t) t.stars (hasEllipsis t) text :=
  prints_param (fun target targetMade => getType_prints named target targetMade) node made

def variadic : CParams → Bool
  | .nil => false
  | .ellipsis => true
  | .cons _ rest => variadic rest

theorem typeHoles_of_chain : ∀ {t : CType}, IsChain t → typeHoles t = 0
  | .base _ _, _ => rfl
  | .pointer _ t, chain => @typeHoles_of_chain t chain
  | .array _ _, chain => by cases chain
  | .function _ _, chain => by cases chain

theorem hasEllipsis_of_chain : ∀ {t : CType}, IsChain t → hasEllipsis t = false
  | .base _ _, _ => rfl
  | .pointer _ t, chain => @hasEllipsis_of_chain t chain
  | .array _ _, chain => by cases chain
  | .function _ _, chain => by cases chain

theorem isChain_of_typeHoles : ∀ {t : CType}, typeHoles t = 0 → IsChain t
  | .base _ _, _ => trivial
  | .pointer _ t, free => @isChain_of_typeHoles t free
  | .array _ _, free => by cases free
  | .function _ _, free => by
    simp only [typeHoles] at free
    omega

theorem chainParams_of_paramsHoles : ∀ {ps : CParams}, paramsHoles ps = 0 → ChainParams ps
  | .nil, _ => trivial
  | .ellipsis, _ => trivial
  | .cons _ rest, free =>
    ⟨isChain_of_typeHoles (Nat.eq_zero_of_add_eq_zero_right free),
      @chainParams_of_paramsHoles rest (Nat.eq_zero_of_add_eq_zero_left free)⟩

theorem paramsHoles_of_chain : ∀ {ps : CParams}, ChainParams ps → paramsHoles ps = 0
  | .nil, _ => rfl
  | .ellipsis, _ => rfl
  | .cons _ rest, chain => by rw [paramsHoles, typeHoles_of_chain chain.1, @paramsHoles_of_chain rest chain.2]

theorem paramsEllipsis_of_chain : ∀ {ps : CParams}, ChainParams ps → paramsEllipsis ps = variadic ps
  | .nil, _ => rfl
  | .ellipsis, _ => rfl
  | .cons _ rest, chain => by
    rw [paramsEllipsis, hasEllipsis_of_chain chain.1, @paramsEllipsis_of_chain rest chain.2]
    rfl

/-! ### The pieces of a head -/

theorem star_not_mem_paramName (idx : Nat) : '*' ∉ paramName idx := by
  intro member
  have word := (paramName_identifier idx).1.2 _ member
  exact absurd word (by decide)

theorem hole_infix_iff {n : Nat} {text : Str} (holes : Holes n text) : "\x7b\x7d".toList <:+: text ↔ n ≠ 0 := by
  cases n with
  | zero => exact iff_of_false (fun inside => holes.brace_free.1 (inside.subset (by decide))) (fun some => some rfl)
  | succ n =>
    obtain ⟨front, back, rfl, _⟩ := holes.split
    exact iff_of_true ⟨front, back, by simp⟩ (Nat.succ_ne_zero n)

theorem headPiece_one (idx : Nat) {front back : Str} (before : Holes 0 front) (behind : Holes 0 back)
    (noDots : '.' ∉ front ++ '\x7b' :: '\x7d' :: back) :
    headPiece idx (front ++ '\x7b' :: '\x7d' :: back) = .ok (front ++ paramName idx ++ back) := by
  have dotFree : ¬ "...".toList <:+: front ++ '\x7b' :: '\x7d' :: back := fun inside => noDots (inside.subset (by decide))
  rw [headPiece, if_neg dotFree, if_pos ⟨front, back, by simp⟩, format_one before behind]

theorem headPiece_none (idx : Nat) {text : Str} (holes : Holes 0 text) (noDots : '.' ∉ text) :
    headPiece idx text = .ok (text ++ [' '] ++ paramName idx) := by
  have dotFree : ¬ "...".toList <:+: text := fun inside => noDots (inside.subset (by decide))
  have behind : Holes 0 (text ++ [' ']) := holes.append (.of_brace_free (by decide) (by decide))
  have split : text ++ " \x7b\x7d".toList = (text ++ [' ']) ++ '\x7b' :: '\x7d' :: [] := by simp
  rw [headPiece, if_neg dotFree, if_neg (mt (hole_infix_iff holes).mp (by simp)), split, format_one behind .nil,
    List.append_nil]

/-- A piece that could be made shows the name: behind the text, or at its only place. -/
theorem headPiece_filled {n idx : Nat} {text piece : Str} (holes : Holes n text) (noDots : '.' ∉ text)
    (shown : headPiece idx text = .ok piece) : ∃ front back, '\x7b' ∉ front ∧ piece = front ++ paramName idx ++ back ∧
      (n = 0 ∧ front = text ++ [' '] ∧ back = [] ∨ n = 1 ∧ text = front ++ '\x7b' :: '\x7d' :: back) := by
  have dotFree : ¬ "...".toList <:+: text := fun inside => noDots (inside.subset (by decide))
  match n with
  | 0 =>
    have behind : Holes 0 (text ++ [' ']) := holes.append (.of_brace_free (by decide) (by decide))
    obtain rfl := Except.ok.inj ((headPiece_none idx holes noDots).symm.trans shown)
    exact ⟨text ++ [' '], [], behind.brace_free.1, (List.append_nil _).symm, Or.inl ⟨rfl, rfl, rfl⟩⟩
  | 1 =>
    obtain ⟨front, back, rfl, before, behind⟩ := holes.split
    obtain rfl := Except.ok.inj ((headPiece_one idx before behind noDots).symm.trans shown)
    exact ⟨front, back, before.brace_free.1, rfl, Or.inr ⟨rfl, rfl⟩⟩
  | n + 2 =>
    rw [headPiece, if_neg dotFree, if_pos ((hole_infix_iff holes).mpr (by simp)), holes.format_few (by simp)] at shown
    cases shown

theorem headPiece_ellipsis (idx : Nat) : headPiece idx "...".toList = .ok "...".toList := if_pos (List.infix_refl _)

/-- The pieces of a parameter list, from this index on. -/
inductive Pieces : Nat → CParams → List Str → Prop
  | nil {idx : Nat} : Pieces idx .nil []
  | ellipsis {idx : Nat} : Pieces idx .ellipsis ["...".toList]
  | cons {idx : Nat} {t : CType} {rest : CParams} {n : Node} {text piece : Str} {pieces : List Str} :
      IsParamNode t n → getType n = .ok text → headPiece idx text = .ok piece → Pieces (idx + 1) rest pieces →
      Pieces idx (.cons t rest) (piece :: pieces)

theorem pieces_of_made {idx : Nat} {ps : CParams} {nodes : List Node} (node : IsParams ps nodes) {pts pieces : List Str}
    (made : getTypes nodes = .ok pts) (shown : (pts.zipIdx idx).mapM (fun item => headPiece item.2 item.1) = .ok pieces) :
    Pieces idx ps pieces := by
  induction idx, ps using paramNames.induct generalizing nodes pts pieces with
  | case1 idx =>
    obtain rfl := node
    obtain rfl := Except.ok.inj made
    obtain rfl := Except.ok.inj shown
    exact .nil
  | case2 idx =>
    obtain rfl := node
    obtain rfl := Except.ok.inj made
    obtain ⟨piece, pieceShown, shown⟩ := bind_ok.mp shown
    obtain rfl := Except.ok.inj ((headPiece_ellipsis idx).symm.trans pieceShown)
    obtain rfl := Except.ok.inj shown
    exact .ellipsis
  | case3 idx t rest ih =>
    obtain ⟨n, more, rfl, later, here⟩ := node
    obtain ⟨text, textMade, made⟩ := bind_ok.mp made
    obtain ⟨texts, textsMade, made⟩ := bind_ok.mp made
    obtain rfl := Except.ok.inj made
    rw [List.zipIdx_cons, List.mapM_cons] at shown
    obtain ⟨piece, pieceShown, shown⟩ := bind_ok.mp shown
    obtain ⟨others, othersShown, shown⟩ := bind_ok.mp shown
    obtain rfl := Except.ok.inj shown
    exact .cons here textMade pieceShown (ih later textsMade othersShown)

theorem param_ne_void {t : CType} (named : WellNamed t) (object : isVoid t = false) {n : Node} (node : IsParamNode t n)
    {text : Str} (made : getType n = .ok text) : text ≠ "void".toList := by
  by_cases chain : IsChain t
  · obtain ⟨hasName, text', made', tokens, _⟩ := getType_param chain named node
    obtain rfl := Except.ok.inj (made'.symm.trans made)
    exact text_ne_void chain named object tokens
  · have holes := (getParam_prints named node made).holes
    rintro rfl
    exact chain (isChain_of_typeHoles (not_not.mp fun some => absurd ((hole_infix_iff holes).mpr some) (by decide)))

theorem params_ne_void : ∀ {ps : CParams}, WellNamedParams ps → Objects ps → ∀ {nodes : List Node},
    IsParams ps nodes → ∀ {pts : List Str}, getTypes nodes = .ok pts → ∀ pt ∈ pts, pt ≠ "void".toList
  | .nil, _, _, _, node, _, made => by
    obtain rfl := node
    obtain rfl := Except.ok.inj made
    exact nofun
  | .ellipsis, _, _, _, node, _, made => by
    obtain rfl := node
    obtain rfl := Except.ok.inj made
    intro pt member
    rw [List.mem_singleton.mp member]
    decide
  | .cons t rest, named, objects, _, node, _, made => by
    obtain ⟨n, more, rfl, later, here⟩ := node
    obtain ⟨text, textMade, made⟩ := bind_ok.mp made
    obtain ⟨texts, textsMade, made⟩ := bind_ok.mp made
    obtain rfl := Except.ok.inj made
    exact List.forall_mem_cons.mpr ⟨param_ne_void named.1 objects.1 here textMade,
      params_ne_void named.2 objects.2 later textsMade⟩

theorem effective_params {ps : CParams} {P : CParams → Prop} (whole : P ps) (none : P .nil) : P (effective ps) := by
  rcases effective_cases ps with ⟨_, same⟩ | same
  · rwa [same]
  · rwa [same]

/-- The pieces of a head are those of the parameters that count. -/
theorem FunctionDecl.Proper.pieces {d : FunctionDecl} (proper : d.Proper) {args : Option Node} {type : Node}
    (node : d.IsNode args type) : ∃ nodes, IsParams (effective d.params) nodes ∧ ∀ pieces,
      (∃ pts, paramTypes args = .ok pts ∧ headParams pts = .ok pieces) ↔
      ∃ pts, getTypes nodes = .ok pts ∧ (pts.zipIdx 0).mapM (fun item => headPiece item.2 item.1) = .ok pieces := by
  obtain ⟨args', m, same, _, listed⟩ := node
  obtain ⟨rfl, rfl⟩ := Node.funcDecl.inj same
  obtain ⟨nodes, params, types⟩ := exists_param_nodes listed
  have objects := proper.objects
  rcases effective_cases d.params with ⟨void, none⟩ | whole
  · rw [void] at params
    obtain ⟨n, more, rfl, rfl, param⟩ := params
    have alone : getTypes [n] = .ok ["void".toList] := by
      rw [getTypes, isTypeNode_void param]
      rfl
    rw [none, types, alone]
    refine ⟨[], rfl, fun pieces => ?_⟩
    constructor
    · rintro ⟨pts, made, shown⟩
      obtain rfl := Except.ok.inj made
      obtain rfl := Except.ok.inj shown
      exact ⟨[], rfl, rfl⟩
    · rintro ⟨pts, made, shown⟩
      obtain rfl := Except.ok.inj made
      obtain rfl := Except.ok.inj shown
      exact ⟨_, rfl, rfl⟩
  · rw [whole] at objects ⊢
    refine ⟨nodes, params, fun pieces => ?_⟩
    rw [types]
    refine exists_congr fun pts => and_congr_right fun made => ?_
    rw [headParams_eq (params_ne_void proper.params objects params made)]

end Tbf

import Mathlib.Data.List.Forall2
import Mathlib.Data.List.SplitBy
import RiscvAssembler.Proofs.Session.Labels

/-!
Tokens of operand text. A token is a run of characters of symbols that is not part of a longer one
(`Text.HasToken`), so `x1f` and `0x1b` are tokens and the `1f` and `1b` in them are not. The scan of a
text finds its tokens and nothing else of such characters (`hasToken_iff`), and replacing what it
finds replaces tokens and keeps all characters between them (`Text.Rewritten`).
-/

namespace RiscvAssembler

/-! ### What a token is -/

namespace Text

/-- A character of symbols: a letter, a digit, or one of three marks. -/
def IsSymbolic (c : Char) : Prop :=
  c.isAlpha = true ∨ c.isDigit = true ∨ c ∈ ['_', '.', '$']

theorem isSymbolChar_iff {c : Char} : isSymbolChar c = true ↔ IsSymbolic c := by
  unfold isSymbolChar isSymbolStart IsSymbolic
  simp only [Bool.or_eq_true, beq_iff_eq, List.mem_cons, List.not_mem_nil, or_false]
  grind

theorem isSymbolChar_eq_false_iff {c : Char} : isSymbolChar c = false ↔ ¬ IsSymbolic c := by
  rw [← isSymbolChar_iff, Bool.not_eq_true]

/-- A text has a token: characters of symbols with none of them right before or right after. -/
def HasToken (s token : List Char) : Prop :=
  ∃ before after, s = before ++ (token ++ after) ∧ token ≠ [] ∧ (∀ c ∈ token, IsSymbolic c) ∧
    (∀ c ∈ before.getLast?, ¬ IsSymbolic c) ∧ ∀ c ∈ after.head?, ¬ IsSymbolic c

/-- A text with each of its tokens replaced as `replaced` says, and every other character kept. -/
inductive Rewritten (replaced : List Char → List Char → Prop) : List Char → List Char → Prop where
  | nil : Rewritten replaced [] []
  | other {c : Char} {s s' : List Char} (between : ¬ IsSymbolic c) :
    Rewritten replaced s s' → Rewritten replaced (c :: s) (c :: s')
  | token {token word s s' : List Char} (nonempty : token ≠ []) (inside : ∀ c ∈ token, IsSymbolic c)
    (ends : ∀ c ∈ s.head?, ¬ IsSymbolic c) (word_eq : replaced token word) :
    Rewritten replaced s s' → Rewritten replaced (token ++ s) (word ++ s')

theorem Rewritten.append_other {replaced : List Char → List Char → Prop} {s s' : List Char}
    (h : Rewritten replaced s s') {run : List Char} (hrun : ∀ c ∈ run, ¬ IsSymbolic c) :
    Rewritten replaced (run ++ s) (run ++ s') := by
  induction run with
  | nil => exact h
  | cons c run ih =>
    rw [List.forall_mem_cons] at hrun
    exact .other hrun.1 (ih hrun.2)

/-- A reference to a label is made of characters of symbols. -/
theorem isSymbolic_of_isReference {token : List Char} {n : Nat} {direction : Direction}
    (h : Label.IsReference token n direction) : ∀ c ∈ token, IsSymbolic c := by
  obtain ⟨digits, rfl, -, hdigits, -⟩ := h
  intro c hc
  rcases List.mem_append.1 hc with hc | hc
  · exact .inr (.inl (hdigits c hc))
  · rw [List.mem_singleton.1 hc]
    cases direction <;> exact .inl rfl

end Text

/-! ### Runs -/

/-- Runs of characters of one kind, each of another kind than its neighbours. -/
structure Runs (runs : List (List Char)) : Prop where
  nonempty : [] ∉ runs
  uniform : ∀ run ∈ runs, run.IsChain fun a b => Text.isSymbolChar a == Text.isSymbolChar b
  apart : runs.IsChain fun run next => ∃ h h',
    (Text.isSymbolChar (run.getLast h) == Text.isSymbolChar (next.head h')) = false

namespace Runs

variable {run : List Char} {runs : List (List Char)}

theorem of_append (before : List (List Char)) (h : Runs (before ++ runs)) : Runs runs :=
  ⟨fun hmem => h.nonempty (List.mem_append_right _ hmem),
    fun _ hmem => h.uniform _ (List.mem_append_right _ hmem), h.apart.right_of_append⟩

theorem eq_of_isChain (h : run.IsChain fun a b => Text.isSymbolChar a == Text.isSymbolChar b)
    {c d : Char} (hc : c ∈ run) (hd : d ∈ run) : Text.isSymbolChar c = Text.isSymbolChar d := by
  have hall : ∀ a ∈ run, ∀ b ∈ run.head?, Text.isSymbolChar a = Text.isSymbolChar b := by
    clear hc hd
    induction run with
    | nil => exact fun a ha => nomatch ha
    | cons a run ih =>
      rintro b hb _ ⟨⟩
      rcases List.mem_cons.1 hb with rfl | hb
      · rfl
      · cases run with
        | nil => cases hb
        | cons a' run =>
          rw [List.isChain_cons_cons] at h
          exact (ih h.2 b hb a' rfl).trans (eq_of_beq h.1).symm
  cases run with
  | nil => cases hc
  | cons a run => exact (hall c hc a rfl).trans (hall d hd a rfl).symm

/-- A run is a token, or has no characters of symbols. -/
theorem cases_of_mem (h : Runs runs) (hmem : run ∈ runs) :
    (∀ c ∈ run, Text.IsSymbolic c) ∨ ∀ c ∈ run, ¬ Text.IsSymbolic c := by
  obtain ⟨a, ha⟩ := List.exists_mem_of_ne_nil run fun hnil => h.nonempty (hnil ▸ hmem)
  cases hkind : Text.isSymbolChar a with
  | true =>
    exact .inl fun c hc =>
      Text.isSymbolChar_iff.1 ((eq_of_isChain (h.uniform run hmem) hc ha).trans hkind)
  | false =>
    exact .inr fun c hc =>
      Text.isSymbolChar_eq_false_iff.1 ((eq_of_isChain (h.uniform run hmem) hc ha).trans hkind)

/-- What follows a token is no character of symbols. -/
theorem not_isSymbolic_of_head? (h : Runs (run :: runs)) (hrun : ∀ c ∈ run, Text.IsSymbolic c) :
    ∀ c ∈ runs.flatten.head?, ¬ Text.IsSymbolic c := by
  intro c hc
  cases runs with
  | nil => cases hc
  | cons next runs =>
    obtain ⟨hlast, hhead, hapart⟩ := (List.isChain_cons_cons.1 h.apart).1
    have hsymbolic := Text.isSymbolChar_iff.2 (hrun _ (List.getLast_mem hlast))
    obtain ⟨d, next, rfl⟩ := List.exists_cons_of_ne_nil hhead
    cases hc
    rw [hsymbolic] at hapart
    exact Text.isSymbolChar_eq_false_iff.1 (by simpa using hapart)

/-- Neither is what stands before it. -/
theorem not_isSymbolic_of_getLast? {before : List (List Char)} (h : Runs (before ++ run :: runs))
    (hrun : ∀ c ∈ run, Text.IsSymbolic c) :
    ∀ c ∈ before.flatten.getLast?, ¬ Text.IsSymbolic c := by
  intro c hc
  rcases List.eq_nil_or_concat before with rfl | ⟨before, previous, rfl⟩
  · cases hc
  · have hpair : Runs (previous :: run :: runs) := of_append before (by simpa using h)
    obtain ⟨hlast, hhead, hapart⟩ := (List.isChain_cons_cons.1 hpair.apart).1
    have hsymbolic := Text.isSymbolChar_iff.2 (hrun _ (List.head_mem hhead))
    have hc' : previous.getLast hlast = c := by
      simpa [List.getLast?_append, List.getLast?_eq_some_getLast hlast] using hc
    rw [hsymbolic, hc'] at hapart
    exact Text.isSymbolChar_eq_false_iff.1 (by simpa using hapart)

/-- Replacing runs replaces the tokens of a text, if all other runs are kept. -/
theorem rewritten {replaced : List Char → List Char → Prop} {words : List (List Char)}
    (h : Runs runs) (hwords : List.Forall₂ replaced runs words)
    (hother : ∀ run word, replaced run word → (∀ c ∈ run, ¬ Text.IsSymbolic c) → word = run) :
    Text.Rewritten replaced runs.flatten words.flatten := by
  induction hwords with
  | nil => exact .nil
  | @cons run word runs words hword _ ih =>
    have hrest := ih (of_append [run] h)
    rcases h.cases_of_mem (.head _) with hrun | hrun
    · exact .token (fun hnil => h.nonempty (hnil ▸ .head _)) hrun (h.not_isSymbolic_of_head? hrun)
        hword hrest
    · rw [hother run word hword hrun]
      exact hrest.append_other hrun

end Runs

/-! ### The scan -/

namespace Labels

theorem runs_tokens (s : List Char) : Runs (tokens s) :=
  ⟨List.nil_notMem_splitBy _ s, fun _ => List.isChain_of_mem_splitBy,
    List.isChain_getLast_head_splitBy (fun a b => Text.isSymbolChar a == Text.isSymbolChar b) s⟩

theorem flatten_tokens (s : List Char) : (tokens s).flatten = s :=
  List.flatten_splitBy _ s

/-- **The scan of a text finds its tokens.** -/
theorem hasToken_iff {s token : List Char} :
    Text.HasToken s token ↔ token ∈ tokens s ∧ ∀ c ∈ token, Text.IsSymbolic c := by
  constructor
  · rintro ⟨before, after, rfl, hne, hinside, hbefore, hafter⟩
    have hkind : ∀ c ∈ token, Text.isSymbolChar c = true :=
      fun c hc => Text.isSymbolChar_iff.2 (hinside c hc)
    have htoken : tokens token = [token] := by
      refine List.splitBy_of_isChain hne (List.pairwise_of_forall_mem_list ?_).isChain
      intro c hc d hd
      rw [hkind c hc, hkind d hd]
      rfl
    have hright : tokens (token ++ after) = tokens token ++ tokens after := by
      refine List.splitBy_append fun c hc d hd => ?_
      rw [hkind c (List.mem_of_getLast? hc), Text.isSymbolChar_eq_false_iff.2 (hafter d hd)]
      rfl
    have hleft : tokens (before ++ (token ++ after)) = tokens before ++ tokens (token ++ after) := by
      refine List.splitBy_append fun c hc d hd => ?_
      rw [List.head?_append_of_ne_nil _ hne] at hd
      rw [Text.isSymbolChar_eq_false_iff.2 (hbefore c hc), hkind d (List.mem_of_head? hd)]
      rfl
    refine ⟨?_, hinside⟩
    rw [hleft, hright, htoken]
    simp
  · rintro ⟨hmem, hinside⟩
    obtain ⟨first, last, hsplit⟩ := List.append_of_mem hmem
    have hruns := runs_tokens s
    rw [hsplit] at hruns
    refine ⟨first.flatten, last.flatten, ?_, ?_, hinside, ?_, ?_⟩
    · rw [← flatten_tokens s, hsplit]
      simp
    · rintro rfl
      exact hruns.nonempty (by simp)
    · exact hruns.not_isSymbolic_of_getLast? hinside
    · exact (Runs.of_append _ hruns).not_isSymbolic_of_head? hinside

/-- So it finds the references of a text. -/
theorem exists_reference_iff {s : List Char} {n : Nat} {direction : Direction} :
    (∃ token, Text.HasToken s token ∧ Label.IsReference token n direction) ↔
      ∃ token ∈ tokens s, Label.IsReference token n direction := by
  constructor
  · rintro ⟨token, htoken, hreference⟩
    exact ⟨token, (hasToken_iff.1 htoken).1, hreference⟩
  · rintro ⟨token, hmem, hreference⟩
    exact ⟨token, hasToken_iff.2 ⟨hmem, Text.isSymbolic_of_isReference hreference⟩, hreference⟩

end Labels

end RiscvAssembler

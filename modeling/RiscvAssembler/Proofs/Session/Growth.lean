import RiscvAssembler.Proofs.Section.Flat
import RiscvAssembler.Proofs.Session.Steps

/-!
Sessions only grow. Whatever a session is asked for, and whether it succeeds or not, items and symbols
stay where they are and the numbers of labels go up (`Grows`); all but the placing of instructions
also leaves the items alone (`Idles`).
-/

namespace RiscvAssembler

/-! ### Growth -/

/-- References to later definitions are to labels that can be written, and not ahead of the
definitions. -/
def Labels.Sound (l : Labels) : Prop :=
  ∀ p ∈ l.pending.toList, p.1 < 2 ^ 32 ∧ p.2 ≤ l.count p.1

namespace Session

/-- What becomes of a session: nothing that was placed or defined is lost, and the numbers of
labels go up. -/
structure Grows (s s' : Session) : Prop where
  catalogs : s'.catalogs = s.catalogs
  items : ∃ new, s'.contents.items.toList = s.contents.items.toList ++ new ∧
    ∀ item ∈ new, 0 < item.size
  symbols : ∀ (name : String) (i : Nat), s.contents.symbols[name]? = some i →
    s'.contents.symbols[name]? = some i
  bounded : s.contents.Bounded → s'.contents.Bounded
  counts : ∀ n, s.labels.count n ≤ s'.labels.count n
  pending : s.labels.pending.toList <+: s'.labels.pending.toList
  sound : s.labels.Sound → s'.labels.Sound
  nextDot : s.labels.nextDot ≤ s'.labels.nextDot
  nextUpper : s.labels.nextUpper ≤ s'.labels.nextUpper

/-- A session that grows without a new item. -/
structure Idles (s s' : Session) : Prop extends Grows s s' where
  same : s'.contents.items = s.contents.items

section

variable {s₀ s s' s'' : Session}

theorem Grows.refl (s : Session) : Grows s s :=
  ⟨rfl, ⟨[], by simp⟩, fun _ _ h => h, fun h => h, fun _ => Nat.le_refl _, List.prefix_rfl,
    fun h => h, Nat.le_refl _, Nat.le_refl _⟩

theorem Grows.trans (h : Grows s s') (h' : Grows s' s'') : Grows s s'' := by
  refine ⟨h'.catalogs.trans h.catalogs, ?_, fun name i hi => h'.symbols name i (h.symbols name i hi),
    fun hb => h'.bounded (h.bounded hb), fun n => Nat.le_trans (h.counts n) (h'.counts n),
    h.pending.trans h'.pending, fun hsound => h'.sound (h.sound hsound),
    Nat.le_trans h.nextDot h'.nextDot, Nat.le_trans h.nextUpper h'.nextUpper⟩
  obtain ⟨new, hnew, hpos⟩ := h.items
  obtain ⟨new', hnew', hpos'⟩ := h'.items
  refine ⟨new ++ new', by rw [hnew', hnew, List.append_assoc], ?_⟩
  intro item hitem
  rcases List.mem_append.1 hitem with hitem | hitem
  · exact hpos item hitem
  · exact hpos' item hitem

theorem Grows.size_le (h : Grows s s') : s.contents.items.size ≤ s'.contents.items.size := by
  obtain ⟨new, hnew, -⟩ := h.items
  have hlength := congrArg List.length hnew
  simp only [Array.length_toList, List.length_append] at hlength
  omega

/-- An item keeps its number. -/
theorem Grows.getElem? (h : Grows s s') {i : Nat} {item : Item}
    (hi : s.contents.items.toList[i]? = some item) : s'.contents.items.toList[i]? = some item := by
  obtain ⟨new, hnew, -⟩ := h.items
  obtain ⟨hlt, -⟩ := List.getElem?_eq_some_iff.1 hi
  rw [hnew, List.getElem?_append_left hlt, hi]

theorem Idles.refl (s : Session) : Idles s s :=
  ⟨.refl s, rfl⟩

theorem Idles.trans (h : Idles s s') (h' : Idles s' s'') : Idles s s'' :=
  ⟨h.toGrows.trans h'.toGrows, h'.same.trans h.same⟩

theorem grows_withItem {item : Item} (h : 0 < item.size) : Grows s (s.withItem item) := by
  refine { Grows.refl s with items := ⟨[item], ?_, ?_⟩, bounded := ?_ }
  · simp [withItem, Section.push]
  · simpa using h
  · intro hb name i hi
    have := hb name i hi
    simp only [withItem, Section.push, Array.size_push]
    omega

theorem idles_withSymbol {name : String} (h : s.contents.defines name = false) :
    Idles s (s.withSymbol name) := by
  refine ⟨{ Grows.refl s with symbols := ?_, bounded := ?_ }, rfl⟩
  · intro name' i hi
    have hne : name ≠ name' := by
      rintro rfl
      rw [Section.defines, Std.TreeMap.contains_eq_isSome_getElem?, hi] at h
      cases h
    simp only [withSymbol]
    rw [Std.TreeMap.getElem?_insert]
    rw [if_neg (by simpa using hne), hi]
  · intro hb name' i hi
    simp only [withSymbol] at hi ⊢
    rw [Std.TreeMap.getElem?_insert] at hi
    split at hi
    · cases hi
      exact Nat.le_refl _
    · exact hb name' i hi

end

end Session

/-! ### What steps do -/

namespace Labels

/-- The entry for a reference to a later definition. -/
def forward? (l : Labels) (token : List Char) : Option (Nat × Nat) :=
  match Label.reference? token with
  | some (n, .forward) => some (n, l.count n)
  | _ => none

/-- The labels with the references to later definitions in some tokens recorded. -/
def noting (l : Labels) (tokens : List (List Char)) : Labels :=
  { l with pending := l.pending ++ (tokens.filterMap l.forward?).toArray }

/-- Resolving records the references of the tokens up to a faulty one, and nothing else. -/
theorem resolveTokens_fst (l : Labels) (tokens : List (List Char)) :
    ∃ done rest, tokens = done ++ rest ∧ (l.resolveTokens tokens).1 = l.noting done ∧
      ∀ text, (l.resolveTokens tokens).2 = .ok text → rest = [] := by
  induction tokens generalizing l with
  | nil => exact ⟨[], [], rfl, by simp [resolveTokens, noting], fun _ _ => rfl⟩
  | cons token tokens ih =>
    unfold resolveTokens
    cases htoken : l.resolveToken token with
    | error e => exact ⟨[], token :: tokens, rfl, by simp [noting], fun _ h => by cases h⟩
    | ok pair =>
      obtain ⟨l₁, text⟩ := pair
      have hl₁ : l₁ = l.noting [token] := by
        unfold resolveToken at htoken
        split at htoken
        · rename_i href
          cases htoken
          simp [noting, forward?, href]
        · rename_i href
          split at htoken
          · cases htoken
          · cases htoken
            simp [noting, forward?, href]
        · rename_i href
          cases htoken
          simp [noting, forward?, href]
      have hforward : l₁.forward? = l.forward? := by
        rw [hl₁]
        rfl
      obtain ⟨done, rest, rfl, hdone, hrest⟩ := ih l₁
      refine ⟨token :: done, rest, rfl, ?_, ?_⟩
      · dsimp only
        rw [hdone]
        unfold noting
        rw [hforward, hl₁]
        cases h : l.forward? token <;> simp [noting, h]
      · intro text' h
        dsimp only at h
        cases hmore : (l₁.resolveTokens (done ++ rest)).2 with
        | ok more => exact hrest more hmore
        | error e =>
          rw [hmore] at h
          cases h

theorem count_define (l : Labels) (n m : Nat) :
    (l.define n).2.count m = if n = m then l.count m + 1 else l.count m := by
  unfold define count
  dsimp only
  rw [Std.TreeMap.getD_insert]
  by_cases h : n = m
  · subst h
    simp
  · simp [h]

theorem lt_of_number? {digits : List Char} {n : Nat} (h : Label.number? digits = some n) :
    n < 2 ^ 32 := by
  unfold Label.number? at h
  simpa using (Option.filter_eq_some_iff.1 h).2

theorem lt_of_reference? {token : List Char} {n : Nat} {direction : Direction}
    (h : Label.reference? token = some (n, direction)) : n < 2 ^ 32 := by
  unfold Label.reference? at h
  split at h
  · rename_i hnumber _
    cases h
    exact lt_of_number? hnumber
  · rename_i hnumber _
    cases h
    exact lt_of_number? hnumber
  · cases h

theorem Sound.noting {l : Labels} (h : l.Sound) (tokens : List (List Char)) :
    (l.noting tokens).Sound := by
  intro p hp
  simp only [Labels.noting, Array.toList_append, List.mem_append, List.mem_filterMap] at hp
  rcases hp with hp | ⟨token, -, hforward⟩
  · exact h p hp
  · unfold forward? at hforward
    split at hforward
    · rename_i n href
      cases hforward
      exact ⟨lt_of_reference? href, Nat.le_refl _⟩
    · cases hforward

theorem Sound.define {l : Labels} (h : l.Sound) (n : Nat) : (l.define n).2.Sound := by
  intro p hp
  obtain ⟨hlt, hle⟩ := h p hp
  refine ⟨hlt, ?_⟩
  rw [count_define]
  split <;> omega

end Labels

namespace Session

section

variable {s s' : Session}

theorem idles_begun_resolve (s : Session) (operands : List Char) :
    Idles s (s.begun (s.labels.resolve operands).1) := by
  obtain ⟨done, -, -, hdone, -⟩ := s.labels.resolveTokens_fst (Labels.tokens operands)
  have hlabels : (s.labels.resolve operands).1 = s.labels.noting done := hdone
  rw [hlabels]
  refine ⟨{ Grows.refl s with
    counts := fun _ => Nat.le_refl _, pending := ?_, sound := fun h => h.noting done }, rfl⟩
  simp [begun, Labels.noting]

theorem idles_withDotUsed (s : Session) : Idles s s.withDotUsed :=
  ⟨{ Grows.refl s with nextDot := Nat.le_succ _ }, rfl⟩

theorem idles_addSymbol (name : String) (s : Session) : Idles s (leftBy (addSymbol name) s) := by
  unfold leftBy
  rw [addSymbol_eq]
  by_cases h : s.contents.defines name = true
  · rw [if_pos h]
    exact .refl s
  · rw [if_neg h]
    exact idles_withSymbol (by simpa using h)

theorem idles_bind {α β : Type} {x : AssemblerM α} {f : α → AssemblerM β}
    (hx : Idles s (leftBy x s)) (hf : ∀ a s₁, x s = .ok a s₁ → Idles s₁ (leftBy (f a) s₁)) :
    Idles s (leftBy (x >>= f) s) := by
  rw [leftBy_bind]
  cases h : x s with
  | ok a s₁ =>
    rw [leftBy_of_ok h] at hx
    exact hx.trans (hf a s₁ h)
  | error e s₁ =>
    rw [leftBy_of_error h] at hx
    exact hx

theorem idles_addLabel (label : Label) (s : Session) : Idles s (leftBy (addLabel label) s) := by
  cases label with
  | named name => exact idles_addSymbol name s
  | numbered n =>
    refine idles_bind ?_ fun name s₁ _ => idles_addSymbol name s₁
    refine ⟨{ Grows.refl s with counts := ?_, sound := fun h => h.define n }, rfl⟩
    intro m
    change _ ≤ (s.labels.define n).2.count m
    rw [Labels.count_define]
    split <;> omega

theorem idles_forM_addLabel (labels : List Label) (s : Session) :
    Idles s (leftBy (labels.forM addLabel) s) := by
  induction labels generalizing s with
  | nil => exact .refl s
  | cons label labels ih =>
    exact idles_bind (idles_addLabel label s) fun _ s₁ _ => ih s₁

theorem idles_nameDot (e : Encoded) (s : Session) : Idles s (leftBy (nameDot e) s) := by
  unfold leftBy
  rw [nameDot_eq]
  cases e.dotAddend? with
  | none => exact .refl s
  | some addend =>
    dsimp only
    by_cases h : s.contents.defines (Label.dotSymbol s.labels.nextDot) = true
    · rw [if_pos h]
      exact idles_withDotUsed s
    · rw [if_neg h]
      have hnew : s.contents.defines (Label.dotSymbol s.labels.nextDot) = false := by simpa using h
      exact (idles_withDotUsed s).trans (idles_withSymbol (s := s.withDotUsed) hnew)

theorem idles_encodeIn (catalog : Catalogs → Catalog) (mnemonic : String) (operands : List Char)
    (s : Session) : Idles s (leftBy (encodeIn catalog mnemonic operands) s) := by
  have hbegun := idles_begun_resolve s operands
  unfold leftBy
  rw [encodeIn_eq]
  cases hresolve : s.labels.resolve operands with
  | mk labels outcome =>
    rw [hresolve] at hbegun
    cases outcome with
    | error e => exact hbegun
    | ok text =>
      dsimp only
      cases (catalog s.catalogs).encode (s.context true) mnemonic text with
      | error cause => exact hbegun
      | ok e => exact hbegun.trans (idles_nameDot e _)

/-- A session with other settings at most. -/
structure Sets (s s' : Session) : Prop where
  catalogs : s'.catalogs = s.catalogs
  contents : s'.contents = s.contents
  labels : s'.labels = s.labels

theorem Sets.refl (s : Session) : Sets s s :=
  ⟨rfl, rfl, rfl⟩

theorem Sets.idles (h : Sets s s') : Idles s s' := by
  obtain ⟨hcatalogs, hcontents, hlabels⟩ := h
  refine ⟨⟨hcatalogs, ⟨[], ?_⟩, ?_, ?_, ?_, ?_, ?_, ?_, ?_⟩, by rw [hcontents]⟩
  · rw [hcontents]
    simp
  · rw [hcontents]
    exact fun _ _ h => h
  · rw [hcontents]
    exact id
  · rw [hlabels]
    exact fun _ => Nat.le_refl _
  · exact hlabels ▸ List.prefix_rfl
  · rw [hlabels]
    exact id
  · rw [hlabels]
  · rw [hlabels]

theorem sets_update {f : Session → Except Error Session} (h : ∀ s', f s = .ok s' → Sets s s') :
    Sets s (leftBy (update f) s) := by
  unfold leftBy
  rw [update_eq]
  cases hf : f s with
  | ok s' => exact h s' hf
  | error e => exact .refl s

theorem sets_useIsa {arch : List Char} (h : s.useIsa arch = .ok s') : Sets s s' := by
  unfold useIsa at h
  split at h
  · cases h
  · cases h
    exact ⟨rfl, rfl, rfl⟩

theorem sets_declareArch {arch : List Char} (h : s.declareArch arch = .ok s') : Sets s s' := by
  unfold declareArch at h
  split at h
  · cases h
  · cases hisa : s.useIsa arch with
    | error e =>
      rw [hisa] at h
      cases h
    | ok s₁ =>
      rw [hisa] at h
      cases h
      obtain ⟨hcatalogs, hcontents, hlabels⟩ := sets_useIsa hisa
      exact ⟨hcatalogs, hcontents, hlabels⟩

theorem sets_option {name : String} (h : s.option name = .ok s') : Sets s s' := by
  unfold Session.option at h
  cases hcommand : OptionCommand.ofName? name with
  | none =>
    rw [hcommand] at h
    cases h
  | some command =>
    rw [hcommand] at h
    obtain ⟨options, saved, seen, hrun⟩ | ⟨d, hrun⟩ := runOption_cases s command
    · cases hrun.symm.trans h
      exact ⟨rfl, rfl, rfl⟩
    · cases hrun.symm.trans h

theorem sets_setAttribute (arguments : List Char) (s : Session) :
    Sets s (leftBy (setAttribute arguments) s) := by
  unfold setAttribute
  apply sets_update
  intro s' h
  split at h
  · cases h
  · cases h
    exact .refl s
  · exact sets_declareArch h

/-- A statement that gives no instruction changes settings at most. -/
theorem sets_statement {st : Statement} (hm : ∀ m o, st ≠ .instruction m o)
    (hf : ∀ t, st ≠ .fields t) (s : Session) : Sets s (leftBy (statement st) s) := by
  cases st with
  | nothing => exact .refl s
  | option name => exact sets_update fun _ h => sets_option h
  | fields text => exact absurd rfl (hf text)
  | setAttribute arguments => exact sets_setAttribute arguments s
  | unknownDirective name => exact .refl s
  | instruction mnemonic operands => exact absurd rfl (hm mnemonic operands)

end

end Session

/-! ### What is placed -/

namespace Session

/-- Encoded instructions have bytes. -/
theorem length_pos_of_encode {cs : Catalogs} (hcs : Catalogs.standard = .ok cs) {c : Catalog}
    (hc : c = cs.instructions ∨ c = cs.fieldTypes) {ctx : Context} {mnemonic : String}
    {operands : List Char} {e : Encoded} (h : c.encode ctx mnemonic operands = .ok e) :
    0 < e.length := by
  obtain ⟨hinstructions, hfieldTypes⟩ := build_of_standard hcs
  rcases hc with rfl | rfl
  · obtain ⟨hmem, -, -⟩ := Catalog.exists_of_encode hinstructions h
    have hpos := of_mem_standardTemplates (fun t => decide (0 < t.length)) (by decide +kernel) hmem
    exact of_decide_eq_true hpos
  · obtain ⟨hmem, -, -⟩ := Catalog.exists_of_encode hfieldTypes h
    have hpos := of_mem_fieldTypes (fun t => decide (0 < t.length)) (by decide +kernel) hmem
    exact of_decide_eq_true hpos

theorem size_pos_of_item? {e : Encoded} (h : 0 < e.length) {relax : Bool} {item : Item}
    (hitem : e.item? relax = some item) : 0 < item.size := by
  have hbytes : 0 < e.toBytes.length := by simpa [Encoded.toBytes] using h
  unfold Encoded.item? at hitem
  split at hitem
  · cases hitem
    exact hbytes
  · split at hitem
    · cases hitem
      simp [Item.size, Branch.new]
    · cases hitem
      exact hbytes
  · cases hitem

section

variable {s : Session}

theorem grows_bind {α β : Type} {x : AssemblerM α} {f : α → AssemblerM β}
    (hx : Grows s (leftBy x s)) (hf : ∀ a s₁, x s = .ok a s₁ → Grows s₁ (leftBy (f a) s₁)) :
    Grows s (leftBy (x >>= f) s) := by
  rw [leftBy_bind]
  cases h : x s with
  | ok a s₁ =>
    rw [leftBy_of_ok h] at hx
    exact hx.trans (hf a s₁ h)
  | error e s₁ =>
    rw [leftBy_of_error h] at hx
    exact hx

theorem grows_place {e : Encoded} (h : 0 < e.length) (s : Session) :
    Grows s (leftBy (place e) s) := by
  cases hitem : e.item? s.options.relax with
  | none =>
    obtain ⟨er, -, her⟩ := place_of_item?_eq_none hitem
    rw [leftBy_of_error her]
    exact .refl s
  | some item =>
    obtain ⟨placed, hplaced⟩ := place_of_item? hitem
    rw [leftBy_of_ok hplaced]
    exact grows_withItem (size_pos_of_item? h hitem)

theorem grows_runStep (hcs : Catalogs.standard = .ok s.catalogs) (pseudo : String) (step : Step) :
    Grows s (leftBy (runStep pseudo step) s) := by
  cases step with
  | label name =>
    exact grows_bind (idles_addSymbol name s).toGrows fun _ s₁ _ => .refl s₁
  | insn mnemonic operands reloc =>
    unfold runStep
    refine grows_bind (.refl s) ?_
    intro s₁ s₂ hget
    cases hget
    split
    · exact .refl s
    · rename_i e hencode
      have hlength : 0 < (relocate e reloc).length := by
        have := length_pos_of_encode hcs (.inl rfl) hencode
        cases reloc <;> exact this
      exact grows_bind (grows_place hlength s) fun _ s₁ _ => .refl s₁

theorem grows_runSteps (hcs : Catalogs.standard = .ok s.catalogs) (pseudo : String)
    (steps : List Step) : Grows s (leftBy (runSteps pseudo steps) s) := by
  induction steps generalizing s with
  | nil => exact .refl s
  | cons step steps ih =>
    have hstep := grows_runStep hcs pseudo step
    refine grows_bind hstep fun _ s₁ hrun => ?_
    rw [leftBy_of_ok hrun] at hstep
    exact grows_bind (ih (hstep.catalogs ▸ hcs)) fun _ s₂ _ => .refl s₂

theorem grows_expand (hcs : Catalogs.standard = .ok s.catalogs) (kind : PseudoKind) (e : Encoded) :
    Grows s (leftBy (expand kind e) s) := by
  unfold leftBy
  rw [expand_eq]
  cases hsteps : kind.expand e s.isa.xlen s.options.pic s.labels.nextUpper with
  | error cause => exact .refl s
  | ok outcome =>
    obtain ⟨steps, next⟩ := outcome
    obtain ⟨imm, -, hforms⟩ := PseudoKind.forms_of_expand hsteps
    have hnext : Grows s (s.withUpper next) :=
      { Grows.refl s with nextUpper := hforms.next_le }
    exact hnext.trans (grows_runSteps (s := s.withUpper next) hcs _ steps)

theorem grows_instruction (hcs : Catalogs.standard = .ok s.catalogs) (mnemonic : String)
    (operands : List Char) : Grows s (leftBy (instruction mnemonic operands) s) := by
  have hencode := (idles_encodeIn Catalogs.instructions mnemonic operands s).toGrows
  refine grows_bind hencode fun e s₁ hrun => ?_
  rw [leftBy_of_ok hrun] at hencode
  cases hpseudo : e.template.pseudo with
  | some kind => exact grows_expand (hencode.catalogs ▸ hcs) kind e
  | none =>
    obtain ⟨labels, text, e₀, -, hencoded, hnamed⟩ := exists_of_encodeIn hrun
    have hlength : 0 < e.length := by
      have := length_pos_of_encode hcs (.inl rfl) hencoded
      obtain ⟨rfl, -⟩ := eq_of_nameDot hnamed
      simpa [Encoded.length] using this
    exact grows_bind (grows_place hlength s₁) fun _ s₂ _ => .refl s₂

theorem grows_fieldInstruction (hcs : Catalogs.standard = .ok s.catalogs) (text : List Char) :
    Grows s (leftBy (fieldInstruction text) s) := by
  unfold fieldInstruction
  obtain ⟨type, fields⟩ := Text.firstWord text
  dsimp only
  split
  · exact grows_bind (.refl s) fun _ _ h => by cases h
  · have hencode := (idles_encodeIn Catalogs.fieldTypes (String.ofList type) fields s).toGrows
    refine grows_bind hencode fun e s₁ hrun => ?_
    obtain ⟨labels, text, e₀, -, hencoded, hnamed⟩ := exists_of_encodeIn hrun
    have hlength : 0 < e.length := by
      have := length_pos_of_encode hcs (.inr rfl) hencoded
      obtain ⟨rfl, -⟩ := eq_of_nameDot hnamed
      simpa [Encoded.length] using this
    exact grows_bind (grows_place hlength s₁) fun _ s₂ _ => .refl s₂

end

end Session

end RiscvAssembler

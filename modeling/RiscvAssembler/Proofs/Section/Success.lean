import Mathlib.Algebra.Order.BigOperators.Group.List
import Mathlib.Algebra.Order.Ring.Nat
import Mathlib.Data.List.Induction
import RiscvAssembler.Proofs.Section.Relaxation

/-!
Layouts that succeed. Once the lengths are settled, layout succeeds if every branch is emitted, and
a failure names a branch that is not (`layout_of_emits`, `defect_of_not_emits`). The lengths stay
sound over the whole life of a section (`sound_live`), so a section of genuine branches without
addends is laid out, or runs out of passes, which takes more than 33 branches
(`plain_sections_lay_out`).
-/

namespace RiscvAssembler

namespace Section

/-! ### Emission -/

variable {s : Section} {offsets : Array Nat} {start : Nat} {items : List Item}

/-- Emission that fails does so at a branch. -/
theorem exists_of_emitItems_error {d : Defect}
    (h : (s.emitItems offsets start items).2 = .error d) :
    ∃ (i : Nat) (b : Branch) (relax : Bool), items[i]? = some (.branch b relax) ∧
      b.emit (s.distance? offsets b.target b.offset (start + startOf items i)) = .error d := by
  induction items generalizing start with
  | nil => cases h
  | cons item items ih =>
    unfold emitItems at h
    cases he : s.emitItem offsets start item with
    | error d' =>
      rw [he] at h
      cases h
      cases item with
      | data bytes fixup => cases he
      | branch b relax =>
        refine ⟨0, b, relax, rfl, ?_⟩
        rw [startOf_zero, Nat.add_zero]
        cases hb : b.emit (s.distance? offsets b.target b.offset start) with
        | error d'' =>
          simp only [emitItem, hb, bind, Except.bind] at he
          rw [Except.error.inj he]
        | ok out => simp [emitItem, hb, bind, Except.bind] at he
    | ok pair =>
      simp only [he] at h
      cases hrest : (s.emitItems offsets (start + item.size) items).2 with
      | ok pieces => simp [hrest, Except.map] at h
      | error d' =>
        simp only [hrest, Except.map, Except.error.injEq] at h
        subst h
        obtain ⟨i, b, relax, hitem, hemit⟩ := ih hrest
        refine ⟨i + 1, b, relax, hitem, ?_⟩
        rw [startOf_cons_succ, ← Nat.add_assoc]
        exact hemit

/-- Emission that succeeds does so at every branch. -/
theorem emit_of_emitItems_ok {pieces : List Piece}
    (h : (s.emitItems offsets start items).2 = .ok pieces) {i : Nat} {b : Branch} {relax : Bool}
    (hitem : items[i]? = some (.branch b relax)) :
    ∃ out, b.emit (s.distance? offsets b.target b.offset (start + startOf items i)) = .ok out := by
  induction items generalizing start pieces i with
  | nil => cases hitem
  | cons item items ih =>
    unfold emitItems at h
    cases he : s.emitItem offsets start item with
    | error d => simp [he] at h
    | ok pair =>
      simp only [he] at h
      cases i with
      | zero =>
        cases hitem
        rw [startOf_zero, Nat.add_zero]
        cases hb : b.emit (s.distance? offsets b.target b.offset start) with
        | error d => simp [emitItem, hb, bind, Except.bind] at he
        | ok out => exact ⟨out, rfl⟩
      | succ i =>
        cases hrest : (s.emitItems offsets (start + item.size) items).2 with
        | error d => simp [hrest, Except.map] at h
        | ok more =>
          rw [startOf_cons_succ, ← Nat.add_assoc]
          exact ih hrest hitem

/-- Every branch is emitted with the length it has. -/
def Emits (s : Section) : Prop :=
  ∀ (i : Nat) (b : Branch) (relax : Bool), s.items.toList[i]? = some (.branch b relax) →
    ∃ out, b.emit (s.distanceAt i b) = .ok out

end Section

/-- Whether layout can list a relocation: its target is no register. -/
def Fixup.isListed (f : Fixup) : Bool :=
  match f.target with
  | .register _ => false
  | _ => true

/-- Whether layout can list the relocation of an item. -/
def Item.isListed : Item → Bool
  | .data _ fixup => fixup.all Fixup.isListed
  | .branch .. => true

theorem Item.isListed_appended (item : Item) : item.appended.isListed = item.isListed := by
  cases item <;> rfl

/-- What holds of items as they were appended holds of them later. -/
theorem Item.forall_of_map_appended {p : Item → Bool} (hp : ∀ item, p item.appended = p item)
    {items' items : List Item} (h : items'.map appended = items.map appended)
    (hitems : ∀ item ∈ items, p item = true) : ∀ item ∈ items', p item = true := by
  intro item hmem
  have hmem' := List.mem_map_of_mem (f := appended) hmem
  rw [h] at hmem'
  obtain ⟨item₀, hmem₀, heq⟩ := List.mem_map.1 hmem'
  rw [← hp, ← heq, hp]
  exact hitems item₀ hmem₀

theorem PlacedFrom.isListed {s : Section} {offsets : Array Nat} {start : Nat} {items : List Item}
    {pieces : List Piece} (h : PlacedFrom s offsets start items pieces)
    (hitems : ∀ item ∈ items, item.isListed = true) :
    ∀ p ∈ pieces.filterMap Piece.fixup, p.2.isListed = true := by
  induction h with
  | nil =>
    intro p hp
    cases hp
  | @cons start item items piece pieces hplaced _ ih =>
    obtain ⟨hhead, htail⟩ := List.forall_mem_cons.1 hitems
    intro p hp
    obtain ⟨piece', hpiece, hf⟩ := List.mem_filterMap.1 hp
    rcases List.mem_cons.1 hpiece with rfl | hpiece
    · cases item with
      | data bytes fixup =>
        obtain rfl : piece' = _ := hplaced
        obtain ⟨f, rfl, rfl⟩ := Option.map_eq_some_iff.1 hf
        exact hhead
      | branch b relax =>
        obtain ⟨code, -, -, rfl⟩ := hplaced
        cases hf
        rfl
    · exact ih htail p (List.mem_filterMap.2 ⟨piece', hpiece, hf⟩)

theorem Layout.allEntries_of_isListed {fixups : List (Nat × Fixup)}
    (h : ∀ p ∈ fixups, p.2.isListed = true) : ∃ entries, allEntries fixups = .ok entries := by
  induction fixups with
  | nil => exact ⟨[], rfl⟩
  | cons p fixups ih =>
    obtain ⟨hhead, htail⟩ := List.forall_mem_cons.1 h
    obtain ⟨more, hmore⟩ := ih htail
    obtain ⟨offset, kind, target, relaxable⟩ := p
    have hhere : ∃ here, entries offset ⟨kind, target, relaxable⟩ = .ok here := by
      cases target with
      | constant v => exact ⟨_, rfl⟩
      | symbol name addend => exact ⟨_, rfl⟩
      | register name => cases hhead
    obtain ⟨here, hhere⟩ := hhere
    exact ⟨here ++ more, bind_eq_ok_iff.2 ⟨here, hhere, bind_eq_ok_iff.2 ⟨more, hmore, rfl⟩⟩⟩

namespace Section

/-! ### Outcomes of layout -/

/-- Layout runs out of passes if the lengths do not settle. -/
theorem layout_of_not_settled {s mid : Section} (h : s.relax maxPasses = (mid, false)) :
    s.layout = (mid, .error (.relaxationLimit maxPasses)) := by
  unfold layout
  rw [h]

/-- **Layout succeeds if the lengths settle and every branch is emitted.** -/
theorem layout_of_emits {s mid : Section} (h : s.relax maxPasses = (mid, true))
    (hemits : mid.Emits) (hlisted : ∀ item ∈ s.items.toList, item.isListed = true) :
    ∃ l, s.layout.2 = .ok l := by
  unfold layout
  rw [h]
  dsimp only
  cases houtcome : mid.emitItems mid.offsets 0 mid.items.toList with
  | mk items outcome =>
    cases outcome with
    | error d =>
      obtain ⟨i, b, relax, hitem, hemit⟩ :=
        exists_of_emitItems_error (congrArg Prod.snd houtcome)
      obtain ⟨out, hout⟩ := hemits i b relax hitem
      rw [Nat.zero_add] at hemit
      cases hemit.symm.trans hout
    | ok pieces =>
      obtain ⟨happended, -, hplaced⟩ := emitItems_eq_ok houtcome
      have hkept := (relax_keeps maxPasses s).2
      rw [h] at hkept
      have hitems : ∀ item ∈ items, item.isListed = true :=
        Item.forall_of_map_appended Item.isListed_appended (happended.trans hkept) hlisted
      obtain ⟨entries, hentries⟩ := Layout.allEntries_of_isListed (hplaced.isListed hitems)
      have hassembled : ∃ l, mid.assemblePieces mid.offsets pieces = .ok l :=
        ⟨_, bind_eq_ok_iff.2 ⟨entries, hentries, rfl⟩⟩
      obtain ⟨l, hl⟩ := hassembled
      refine ⟨l, ?_⟩
      dsimp only
      rw [hl]
      rfl

/-- **Layout has a defect if the lengths settle and some branch is not emitted.** -/
theorem defect_of_not_emits {s mid : Section} (h : s.relax maxPasses = (mid, true))
    (hemits : ¬mid.Emits) :
    ∃ (i : Nat) (b : Branch) (relax : Bool) (d : Defect),
      mid.items.toList[i]? = some (.branch b relax) ∧ b.emit (mid.distanceAt i b) = .error d ∧
        s.layout.2 = .error (.defect d) := by
  unfold layout
  rw [h]
  dsimp only
  cases houtcome : (mid.emitItems mid.offsets 0 mid.items.toList).2 with
  | ok pieces =>
    refine absurd (fun i b relax hitem => ?_) hemits
    have hemit := emit_of_emitItems_ok houtcome hitem
    rwa [Nat.zero_add] at hemit
  | error d =>
    obtain ⟨i, b, relax, hitem, hemit⟩ := exists_of_emitItems_error houtcome
    rw [Nat.zero_add] at hemit
    exact ⟨i, b, relax, d, hitem, hemit, rfl⟩

/-! ### The life of a section -/

/-- Section `s'` comes from `s` by emission and by new items at the end. -/
structure Extends (s s' : Section) : Prop where
  shrinks : s.Shrinks s'
  branches : ∀ (i : Nat) (b' : Branch) (relax : Bool),
    s'.items.toList[i]? = some (.branch b' relax) →
      (∃ b state, s.items.toList[i]? = some (.branch b relax) ∧ b' = { b with state := state } ∧
        (state = .unresolved ↔ b.state = .unresolved)) ∨
      ∃ kind insn target offset, b' = .new kind insn target offset

/-- The size of a section with the longest form of every branch. -/
def capacity (s : Section) : Nat :=
  (s.items.toList.map fun item => item.appended.size).sum

theorem extent_le_capacity {s : Section}
    (h : ∀ (i : Nat) (b : Branch) (relax : Bool), s.items.toList[i]? = some (.branch b relax) →
      b.length ≤ 8) : s.extent ≤ s.capacity := by
  rw [extent, startOf, List.take_of_length_le (by simp)]
  apply List.sum_le_sum
  intro item hmem
  cases item with
  | data bytes fixup => exact Nat.le_refl _
  | branch b relax =>
    obtain ⟨i, hi⟩ := List.getElem?_of_mem hmem
    exact h i b relax hi

theorem capacity_of_map_appended {s s' : Section}
    (h : s'.items.toList.map Item.appended = s.items.toList.map Item.appended) :
    s'.capacity = s.capacity := by
  have hsizes := congrArg (List.map Item.size) h
  rw [List.map_map, List.map_map] at hsizes
  exact congrArg List.sum hsizes

theorem Sound.length_le {s : Section} (h : s.Sound) {i : Nat} {b : Branch} {relax : Bool}
    (hb : s.items.toList[i]? = some (.branch b relax)) : b.length ≤ 8 := by
  have hlength := (h i b relax hb).length
  omega

theorem Sound.extent_lt {s : Section} (h : s.Sound) (hcapacity : s.capacity < 2 ^ 63) :
    s.extent < 2 ^ 63 :=
  Nat.lt_of_le_of_lt (extent_le_capacity fun _ _ _ hb => h.length_le hb) hcapacity

/-- **Emission and growth keep every length sound.** -/
theorem Sound.of_extends {s s' : Section} (h : s.Sound) (hextends : s.Extends s')
    (hcapacity : s.capacity < 2 ^ 63) (hcapacity' : s'.capacity < 2 ^ 63) : s'.Sound := by
  have hs := h.extent_lt hcapacity
  -- The lengths of `s'` are bounded before they are known to be sound, as its distances need it.
  have hs' : s'.extent < 2 ^ 63 := by
    refine Nat.lt_of_le_of_lt (extent_le_capacity fun i b' relax hitem' => ?_) hcapacity'
    rcases hextends.branches i b' relax hitem' with
      ⟨b, state, hitem, rfl, -⟩ | ⟨kind, insn, target, offset, rfl⟩
    · have hle : b.length ≤ 8 := h.length_le hitem
      exact hle
    · exact Nat.le_refl 8
  intro i b' relax hitem'
  rcases hextends.branches i b' relax hitem' with
    ⟨b, state, hitem, rfl, hstate⟩ | ⟨kind, insn, target, offset, rfl⟩
  · have hsound := h i b relax hitem
    refine Branch.Sound.of_nearer (d := s.distanceAt i b) ?_
      fun hoffset => hextends.shrinks.nearer hs hs' (index_le hitem) hoffset
    exact ⟨hsound.length, fun hs => hsound.unresolved (hstate.1 hs),
      fun hs ho => hsound.reaches (fun hb => hs (hstate.2 hb)) ho⟩
  · exact Branch.sound_new kind insn target offset _

/-- Growing extends a section. -/
theorem extends_apply (s : Section) (op : SectionOp) : s.Extends (s.apply op) := by
  refine ⟨⟨?_, ?_⟩, ?_⟩
  · intro name i hname
    cases hop : op.item? with
    | some item => rwa [symbols_apply_of_item? hop]
    | none =>
      cases op with
      | data bytes fixup => cases hop
      | branch insn kind target relax => rwa [apply_branch, hop]
      | define defined =>
        cases hd : s.defines defined with
        | true => rwa [apply_define_of_defines hd]
        | false =>
          rw [apply_define_of_not_defines hd, Std.TreeMap.getElem?_insert, if_neg]
          · exact hname
          · intro heq
            have hsame : defined = name := by simpa using heq
            subst hsame
            rw [defines, Std.TreeMap.contains_eq_isSome_getElem?, hname] at hd
            cases hd
  · intro i item hitem
    refine ⟨item, ?_, Nat.le_refl _⟩
    rw [items_apply, List.getElem?_append_left (List.getElem?_eq_some_iff.1 hitem).1]
    exact hitem
  · intro i b' relax hitem
    rw [items_apply] at hitem
    rcases Nat.lt_or_ge i s.items.toList.length with hlt | hge
    · rw [List.getElem?_append_left hlt] at hitem
      exact .inl ⟨b', b'.state, hitem, rfl, Iff.rfl⟩
    · rw [List.getElem?_append_right hge] at hitem
      have hmem := List.mem_of_getElem? hitem
      have hop : op.item? = some (.branch b' relax) := Option.mem_toList.1 hmem
      have happended := SectionOp.appended_of_item? hop
      exact .inr ⟨_, _, _, _, (Item.branch.inj happended).1.symm⟩

/-- Emission changes nothing but the state of branches whose length is chosen. -/
theorem emitItems_keeps (s : Section) (offsets : Array Nat) (start : Nat) (items : List Item)
    (i : Nat) :
    (s.emitItems offsets start items).1[i]? = items[i]? ∨
      ∃ (b : Branch) (relax : Bool), items[i]? = some (.branch b relax) ∧
        b.state ≠ .unresolved ∧
        (s.emitItems offsets start items).1[i]? =
          some (.branch { b with state := .emitted } relax) := by
  induction items generalizing start i with
  | nil => exact .inl rfl
  | cons item items ih =>
    unfold emitItems
    cases he : s.emitItem offsets start item with
    | error d => exact .inl rfl
    | ok pair =>
      obtain ⟨item', piece⟩ := pair
      cases i with
      | succ i => exact ih (start + item.size) i
      | zero =>
        cases item with
        | data bytes fixup =>
          cases he
          exact .inl rfl
        | branch b relax =>
          simp only [emitItem] at he
          obtain ⟨⟨b', code⟩, hemit, he⟩ := bind_eq_ok_iff.1 he
          cases he
          obtain ⟨hstate, -, -, rfl⟩ := Branch.emit_eq_ok_iff.1 hemit
          exact .inr ⟨b, relax, rfl, hstate, rfl⟩

/-- Emission extends a section. -/
theorem extends_emitItems (s : Section) :
    s.Extends { s with items := (s.emitItems s.offsets 0 s.items.toList).1.toArray } := by
  refine ⟨⟨fun _ _ h => h, ?_⟩, ?_⟩
  · intro i item hitem
    rcases s.emitItems_keeps s.offsets 0 s.items.toList i with hsame | ⟨b, relax, hb, -, hb'⟩
    · exact ⟨item, hsame.trans hitem, Nat.le_refl _⟩
    · cases hitem.symm.trans hb
      exact ⟨_, hb', Nat.le_refl _⟩
  · intro i b' relax' hitem
    rcases s.emitItems_keeps s.offsets 0 s.items.toList i with hsame | ⟨b, relax, hb, hstate, hb'⟩
    · exact .inl ⟨b', b'.state, hsame.symm.trans hitem, rfl, Iff.rfl⟩
    · cases hitem.symm.trans hb'
      exact .inl ⟨b, .emitted, hb, rfl, fun h => BranchState.noConfusion h,
        fun h => absurd h hstate⟩

end Section

/-- What happens to a section: it grows, or it is laid out. -/
inductive SectionEvent where
  | grow (op : SectionOp)
  | layout
deriving DecidableEq, Repr

/-- The item that an event appends, if it appends one. -/
def SectionEvent.item? : SectionEvent → Option Item
  | .grow op => op.item?
  | .layout => none

namespace Section

/-- The section after an event. -/
def after (s : Section) : SectionEvent → Section
  | .grow op => s.apply op
  | .layout => s.layout.1

/-- The section after events, from nothing on. -/
def live (events : List SectionEvent) : Section :=
  events.foldl after empty

theorem live_snoc (events : List SectionEvent) (event : SectionEvent) :
    live (events ++ [event]) = (live events).after event := by
  rw [live, List.foldl_append]
  rfl

/-- The section that layout leaves: as the passes did, and emitted if they settled. -/
theorem layout_fst_of_settled {s mid : Section} (h : s.relax maxPasses = (mid, true)) :
    s.layout.1 =
      { mid with items := (mid.emitItems mid.offsets 0 mid.items.toList).1.toArray } := by
  unfold layout
  rw [h]

/-- Layout keeps the items apart from their lengths and states. -/
theorem map_appended_layout (s : Section) :
    s.layout.1.items.toList.map Item.appended = s.items.toList.map Item.appended := by
  have hkept := (relax_keeps maxPasses s).2
  cases hrelax : s.relax maxPasses with
  | mk mid settled =>
    rw [hrelax] at hkept
    cases settled with
    | false => rwa [layout_of_not_settled hrelax]
    | true =>
      rw [layout_fst_of_settled hrelax, ← hkept]
      apply List.ext_getElem?
      intro i
      rw [List.getElem?_map, List.getElem?_map]
      rcases mid.emitItems_keeps mid.offsets 0 mid.items.toList i with
        hsame | ⟨b, relax, hb, -, hb'⟩
      · exact congrArg (Option.map Item.appended) hsame
      · exact (congrArg (Option.map Item.appended) hb').trans
          (congrArg (Option.map Item.appended) hb).symm

/-- The items of a section are those that its growth appended. -/
theorem map_appended_live (events : List SectionEvent) :
    (live events).items.toList.map Item.appended = events.filterMap SectionEvent.item? := by
  induction events using List.reverseRecOn with
  | nil => rfl
  | append_singleton events event ih =>
    rw [live_snoc, List.filterMap_append, ← ih]
    cases event with
    | layout =>
      rw [after, map_appended_layout]
      simp [SectionEvent.item?]
    | grow op =>
      rw [after, items_apply, List.map_append]
      cases hop : op.item? with
      | none => simp [SectionEvent.item?, hop]
      | some item => simp [SectionEvent.item?, hop, SectionOp.appended_of_item? hop]

/-- The size that events ask for, with the longest form of every branch. -/
def demand (events : List SectionEvent) : Nat :=
  ((events.filterMap SectionEvent.item?).map Item.size).sum

theorem capacity_live (events : List SectionEvent) : (live events).capacity = demand events := by
  rw [capacity, demand, ← map_appended_live, List.map_map]
  rfl

theorem capacity_le_after (s : Section) (event : SectionEvent) :
    s.capacity ≤ (s.after event).capacity := by
  cases event with
  | layout => exact Nat.le_of_eq (capacity_of_map_appended s.map_appended_layout).symm
  | grow op =>
    rw [after, capacity, capacity, items_apply, List.map_append, List.sum_append]
    exact Nat.le_add_right _ _

/-- Layout keeps every length sound, also when it fails. -/
theorem Sound.layout {s : Section} (h : s.Sound) (hcapacity : s.capacity < 2 ^ 63) :
    s.layout.1.Sound := by
  have hsound := h.relax (h.extent_lt hcapacity) maxPasses
  have hmid := capacity_of_map_appended (relax_keeps maxPasses s).2
  have hcapacity' := capacity_of_map_appended s.map_appended_layout
  cases hrelax : s.relax maxPasses with
  | mk mid settled =>
    rw [hrelax] at hsound hmid
    cases settled with
    | false => rwa [layout_of_not_settled hrelax]
    | true =>
      rw [layout_fst_of_settled hrelax] at hcapacity' ⊢
      exact hsound.of_extends mid.extends_emitItems (hmid ▸ hcapacity) (hcapacity' ▸ hcapacity)

/-- **Lengths are sound over the whole life of a section** that the address space can hold. -/
theorem sound_live {events : List SectionEvent} (hcapacity : (live events).capacity < 2 ^ 63) :
    (live events).Sound := by
  induction events using List.reverseRecOn with
  | nil =>
    intro i b relax hitem
    cases hitem
  | append_singleton events event ih =>
    rw [live_snoc] at hcapacity ⊢
    have hbefore := Nat.lt_of_le_of_lt (capacity_le_after (live events) event) hcapacity
    cases event with
    | layout => exact (ih hbefore).layout hbefore
    | grow op => exact (ih hbefore).of_extends (extends_apply _ op) hbefore hcapacity

end Section

/-! ### Genuine branches without addends -/

/-- Whether an instruction is a branch or jump of this kind. -/
def BranchKind.isOfKind (k : BranchKind) : Instr → Bool
  | .branch .. => !k.isJump
  | .jal .. => k.isJump
  | _ => false

/-- Whether a word is a branch or jump of this kind, for registers of some width. -/
def BranchKind.isGenuine (k : BranchKind) (insn : Word) : Bool :=
  [Xlen.rv32, .rv64].any fun x => (k.instr? x insn).any k.isOfKind

/-- A genuine compressed branch or jump has a form of 32 bits. -/
theorem BranchKind.expand_of_isGenuine {k : BranchKind} (hk : k.isShort = true) {insn : Word}
    (h : k.isGenuine insn = true) : ∃ w, BranchWord.expand insn = .ok w := by
  obtain ⟨x, -, hany⟩ := List.any_eq_true.1 h
  rw [instr?, if_pos hk] at hany
  cases hdecode : decode16 x (insn.setWidth 16) with
  | none =>
    rw [hdecode] at hany
    cases hany
  | some instr =>
    rw [hdecode] at hany
    cases instr with
    | branch c r s o =>
      obtain ⟨hq, ⟨hf, -⟩ | ⟨hf, -⟩, -⟩ := decode16_eq_branch_iff.1 hdecode
      · exact ⟨_, by rw [BranchWord.expand, toNat_and_eq_of_funct3 hq hf]; rfl⟩
      · exact ⟨_, by rw [BranchWord.expand, toNat_and_eq_of_funct3 hq hf]; rfl⟩
    | jal r o =>
      obtain ⟨hq, ⟨hf, -⟩ | ⟨-, hf, -⟩, -⟩ := decode16_eq_jal_iff.1 hdecode
      · exact ⟨_, by rw [BranchWord.expand, toNat_and_eq_of_funct3 hq hf]; rfl⟩
      · exact ⟨_, by rw [BranchWord.expand, toNat_and_eq_of_funct3 hq hf]; rfl⟩
    | _ => cases hany

theorem Branch.bytes_of_wideWord {b : Branch} {w : Word} (h : b.wideWord = .ok w) :
    ∃ code, b.bytes = .ok code := by
  unfold bytes
  split
  · exact ⟨_, rfl⟩
  · split
    · exact ⟨_, rfl⟩
    · rw [h]
      simp only [bind, Except.bind]
      split <;> exact ⟨_, rfl⟩

/-- Whether there is nothing in an item that layout might fail at: a branch is genuine and has no
addend, and data has no relocation against a register. -/
def Item.isPlain (item : Item) : Bool :=
  item.isListed && item.branch?.all fun b => b.offset == 0 && b.kind.isGenuine b.insn

theorem Item.isPlain_appended (item : Item) : item.appended.isPlain = item.isPlain := by
  cases item <;> rfl

namespace Section

/-- Settled lengths of plain branches are emitted. -/
theorem emits_of_isPlain {s mid : Section} {n : Nat} (h : s.relax n = (mid, true))
    (hsound : mid.Sound) (hplain : ∀ item ∈ mid.items.toList, item.isPlain = true) : mid.Emits := by
  intro i b relax hitem
  have hb := (Bool.and_eq_true_iff.1 (hplain _ (List.mem_of_getElem? hitem))).2
  obtain ⟨hoffset, hgenuine⟩ := Bool.and_eq_true_iff.1 hb
  have hstate := state_ne_of_relax h hitem
  have hreaches := (hsound i b relax hitem).reaches hstate (beq_iff_eq.1 hoffset)
  have hwide : ∃ w, b.wideWord = .ok w := by
    unfold Branch.wideWord
    split
    · rename_i hshort
      exact BranchKind.expand_of_isGenuine hshort hgenuine
    · exact ⟨_, rfl⟩
  obtain ⟨w, hw⟩ := hwide
  obtain ⟨code, hcode⟩ := Branch.bytes_of_wideWord hw
  exact ⟨_, Branch.emit_eq_ok_iff.2 ⟨hstate, hreaches, hcode, rfl⟩⟩

/-- **Sections of genuine branches without addends are laid out.** Whatever was appended, defined
and laid out before, layout succeeds or runs out of passes; and it takes more than 33 branches to do
that. -/
theorem plain_sections_lay_out {events : List SectionEvent}
    (hplain : ∀ event ∈ events, ∀ item, event.item? = some item → item.isPlain = true)
    (hdemand : demand events < 2 ^ 63) :
    (∃ l, (live events).layout.2 = .ok l) ∨
      ((live events).layout.2 = .error (.relaxationLimit maxPasses) ∧
        33 < (live events).branches.length) := by
  have hcapacity : (live events).capacity < 2 ^ 63 := capacity_live events ▸ hdemand
  have hsound := sound_live hcapacity
  have hitems : ∀ item ∈ (live events).items.toList, item.isPlain = true := by
    intro item hmem
    have hmem' := List.mem_map_of_mem (f := Item.appended) hmem
    rw [map_appended_live] at hmem'
    obtain ⟨event, hevent, hitem⟩ := List.mem_filterMap.1 hmem'
    rw [← Item.isPlain_appended]
    exact hplain event hevent _ hitem
  have hkept := (relax_keeps maxPasses (live events)).2
  have hmid := hsound.relax (hsound.extent_lt hcapacity) maxPasses
  cases hrelax : (live events).relax maxPasses with
  | mk mid settled =>
    rw [hrelax] at hkept hmid
    cases settled with
    | false =>
      refine .inr ⟨by rw [layout_of_not_settled hrelax], ?_⟩
      by_contra hfew
      have hslack := slack_le hsound
      have hsettles := settles_of_slack_lt hsound (hsound.extent_lt hcapacity)
        (n := maxPasses) (by unfold maxPasses; omega)
      rw [hrelax] at hsettles
      cases hsettles
    | true =>
      left
      have hmidItems := Item.forall_of_map_appended Item.isPlain_appended hkept hitems
      exact layout_of_emits hrelax (emits_of_isPlain hrelax hmid hmidItems)
        fun item hmem => (Bool.and_eq_true_iff.1 (hitems item hmem)).1

/-- Branches forth and back and out of the section, one of them laid out before the others come. -/
def plainEvents : List SectionEvent :=
  [.grow (.define "a"), .grow (.branch 0xc001 .rvcBranch (.symbol "a" 0) true), .layout,
    .grow (.branch 0xe001 .rvcBranch (.symbol "b" 0) true),
    .grow (.data (List.replicate 260 0) none),
    .grow (.branch 0xa001 .rvcJump (.symbol "elsewhere" 0) false), .layout, .grow (.define "b")]

theorem plain_sections_lay_out_plainEvents :
    (∀ event ∈ plainEvents, ∀ item, event.item? = some item → item.isPlain = true) ∧
      demand plainEvents < 2 ^ 63 ∧ ∃ l, (live plainEvents).layout.2 = .ok l := by
  have hplain : ∀ event ∈ plainEvents, ∀ item, event.item? = some item → item.isPlain = true := by
    have hall : plainEvents.all (fun event => event.item?.all Item.isPlain) = true := by
      decide +kernel
    intro event hevent item hitem
    have hevent := List.all_eq_true.1 hall event hevent
    rwa [hitem] at hevent
  have hdemand : demand plainEvents < 2 ^ 63 := by decide +kernel
  refine ⟨hplain, hdemand, ?_⟩
  rcases plain_sections_lay_out hplain hdemand with hlayout | ⟨-, hmany⟩
  · exact hlayout
  · have hfew : (live plainEvents).branches.length = 3 := by decide +kernel
    omega

end Section

end RiscvAssembler

import Mathlib.Algebra.Order.BigOperators.Group.List
import Mathlib.Data.List.Forall2
import RiscvAssembler.Proofs.Branch.ControlFlow

/-!
Passes over a section. All branches shrink at once, from distances that are out of date as soon
as they do. But a distance between places of the section keeps its sign and never grows, so a length
that was enough stays enough (`Branch.Sound`): for every branch without an addend, after every pass
(`Sound.relax`). Every pass but the last takes two bytes or more from some branch, which bounds the
passes (`settles_of_slack_lt`).
-/

namespace RiscvAssembler

/-! ### Distances -/

/-- A distance `d'` that calls for no longer branch than `d`: nearer on the same side, or any at all
if there was none. -/
def Nearer (d' d : Option Int64) : Prop :=
  ∀ y, d = some y → ∃ x, d' = some x ∧
    (0 ≤ x.toInt ∧ x.toInt ≤ y.toInt ∨ y.toInt ≤ x.toInt ∧ x.toInt ≤ 0)

namespace BranchKind

theorem within_of_nearer {reach x y : Int64} (hreach : 0 < reach.toInt)
    (h : 0 ≤ x.toInt ∧ x.toInt ≤ y.toInt ∨ y.toInt ≤ x.toInt ∧ x.toInt ≤ 0)
    (hy : within reach y = true) : within reach x = true := by
  rw [within_iff hreach] at hy ⊢
  omega

theorem shortReach_pos (k : BranchKind) : 0 < k.shortReach.toInt := by
  cases k <;> decide

theorem lengthAt_le_farLength (k : BranchKind) (d : Option Int64) :
    k.lengthAt d ≤ k.farLength := by
  cases d with
  | none => exact Nat.le_refl _
  | some d =>
    unfold lengthAt
    cases k <;> simp only [farLength, isJump, isShort] <;> grind

/-- A nearer target calls for no longer branch. -/
theorem lengthAt_le_of_nearer (k : BranchKind) {d' d : Option Int64} (h : Nearer d' d) :
    k.lengthAt d' ≤ k.lengthAt d := by
  cases d with
  | none => exact lengthAt_le_farLength k d'
  | some y =>
    obtain ⟨x, rfl, hx⟩ := h y rfl
    have hshort := within_of_nearer k.shortReach_pos hx
    have hwide := within_of_nearer (by decide : 0 < conditionalReach.toInt) hx
    unfold lengthAt
    cases k <;> simp only [farLength, isJump, isShort] <;> grind

/-- The lengths that a known distance calls for, with the kinds that have the long ones. -/
theorem lengthAt_some_cases (k : BranchKind) (d : Int64) :
    k.lengthAt (some d) = 2 ∨ k.lengthAt (some d) = 4 ∨
      k.lengthAt (some d) = 6 ∧ k = .shortBranch ∨
      k.lengthAt (some d) = 8 ∧ k.isJump = false := by
  unfold lengthAt
  cases k <;> simp only [farLength, isJump, isShort] <;> grind

/-- The length that a distance calls for is enough for it. -/
theorem reaches_lengthAt (k : BranchKind) (d : Option Int64) :
    k.reaches (k.lengthAt d) d = true := by
  cases d with
  | none => cases k <;> rfl
  | some d =>
    rcases k.lengthAt_some_cases d with h | h | ⟨h, hk⟩ | ⟨h, hk⟩ <;> rw [h]
    · exact decide_eq_true h.le
    · exact decide_eq_true h.le
    · exact decide_eq_true hk
    · change (!k.isJump) = true
      rw [hk]
      rfl

/-- A length that is enough stays enough as the target comes nearer. -/
theorem reaches_of_nearer {k : BranchKind} {n : Nat} {d' d : Option Int64} (h : Nearer d' d)
    (hr : k.reaches n d = true) : k.reaches n d' = true := by
  have hle := k.lengthAt_le_of_nearer h
  rcases Branch.length_of_reaches hr with rfl | rfl | rfl | rfl
  · obtain ⟨-, y, rfl, -⟩ := Branch.short_of_reaches_two hr
    obtain ⟨x, rfl, -⟩ := h y rfl
    exact decide_eq_true (Nat.le_trans hle (of_decide_eq_true hr))
  · cases d with
    | none =>
      have hjump : k.isJump = true := hr
      have hfar : k.farLength = 4 := by rw [farLength, hjump, if_pos rfl]
      cases d' with
      | none => exact hr
      | some x => exact decide_eq_true (hfar ▸ lengthAt_le_farLength k (some x))
    | some y =>
      obtain ⟨x, rfl, -⟩ := h y rfl
      exact decide_eq_true (Nat.le_trans hle (of_decide_eq_true hr))
  · exact hr
  · exact hr

theorem lengthAt_cases (k : BranchKind) (d : Option Int64) :
    k.lengthAt d = 2 ∨ k.lengthAt d = 4 ∨ k.lengthAt d = 6 ∨ k.lengthAt d = 8 :=
  Branch.length_of_reaches (k.reaches_lengthAt d)

end BranchKind

/-! ### One branch -/

namespace Branch

/-- The length of a branch is one of the four, the longest until it is chosen; from then on it is
enough for the distance, unless the branch has an addend. -/
structure Sound (b : Branch) (distance : Option Int64) : Prop where
  length : b.length = 2 ∨ b.length = 4 ∨ b.length = 6 ∨ b.length = 8
  unresolved : b.state = .unresolved → b.length = 8
  reaches : b.state ≠ .unresolved → b.offset = 0 → b.kind.reaches b.length distance = true

theorem sound_new (kind : BranchKind) (insn : Word) (target : String) (offset : Int64)
    (distance : Option Int64) : (Branch.new kind insn target offset).Sound distance :=
  ⟨.inr (.inr (.inr rfl)), fun _ => rfl, fun h => absurd rfl h⟩

theorem Sound.of_nearer {b : Branch} {d' d : Option Int64} (h : b.Sound d)
    (hd : b.offset = 0 → Nearer d' d) : b.Sound d' :=
  ⟨h.length, h.unresolved, fun hs ho => BranchKind.reaches_of_nearer (hd ho) (h.reaches hs ho)⟩

theorem state_tighten_ne (b : Branch) (d : Option Int64) : (b.tighten d).state ≠ .unresolved := by
  unfold tighten
  split
  · rename_i hs
    rw [hs]
    decide
  · exact BranchState.noConfusion

theorem offset_tighten (b : Branch) (d : Option Int64) : (b.tighten d).offset = b.offset := by
  unfold tighten
  split <;> rfl

theorem length_tighten_le (b : Branch) (d : Option Int64) : (b.tighten d).length ≤ b.length := by
  unfold tighten
  split
  · exact Nat.le_refl _
  · exact Nat.min_le_right _ _

/-- **One branch in one pass.** A length chosen for a distance, or kept, is enough for it. -/
theorem Sound.tighten {b : Branch} {d : Option Int64} (h : b.Sound d) : (b.tighten d).Sound d := by
  by_cases hs : b.state = .emitted
  · rw [Branch.tighten, if_pos hs]
    exact h
  · rw [Branch.tighten, if_neg hs]
    rcases Nat.le_total (b.kind.lengthAt d) b.length with hle | hle
    · rw [Nat.min_eq_left hle]
      exact ⟨b.kind.lengthAt_cases d, fun hs' => BranchState.noConfusion hs',
        fun _ _ => b.kind.reaches_lengthAt d⟩
    · rw [Nat.min_eq_right hle]
      refine ⟨h.length, fun hs' => BranchState.noConfusion hs', fun _ ho => ?_⟩
      cases hstate : b.state with
      | unresolved =>
        -- No length was chosen before, so eight bytes stay only if the distance calls for them.
        have height := h.unresolved hstate
        have hfar := b.kind.lengthAt_cases d
        have hlength : b.length = b.kind.lengthAt d := by omega
        rw [hlength]
        exact b.kind.reaches_lengthAt d
      | resolved => exact h.reaches (by rw [hstate]; decide) ho
      | emitted => exact absurd hstate hs

end Branch

/-! ### Sections that shrink -/

theorem startOf_succ {items : List Item} {i : Nat} {item : Item} (h : items[i]? = some item) :
    startOf items (i + 1) = startOf items i + item.size := by
  rw [startOf, startOf, List.take_add_one, h]
  simp

theorem startOf_mono (items : List Item) {i j : Nat} (hij : i ≤ j) :
    startOf items i ≤ startOf items j := by
  induction hij with
  | refl => exact Nat.le_refl _
  | @step j _ ih =>
    cases h : items[j]? with
    | none =>
      have hend : startOf items (j + 1) = startOf items j := by
        rw [startOf, startOf, List.take_add_one, h]
        simp
      exact hend ▸ ih
    | some item =>
      rw [startOf_succ h]
      omega

namespace Section

/-- The distance of a branch that stands at item `i` from its target. -/
def distanceAt (s : Section) (i : Nat) (b : Branch) : Option Int64 :=
  s.distance? s.offsets b.target b.offset (startOf s.items.toList i)

/-- The size in bytes. -/
def extent (s : Section) : Nat :=
  startOf s.items.toList s.items.size

/-- A later state of a section: symbols stand where they stood, and items are no longer. -/
structure Shrinks (s s' : Section) : Prop where
  symbols : ∀ (name : String) (i : Nat), s.symbols[name]? = some i → s'.symbols[name]? = some i
  items : ∀ (i : Nat) (item : Item), s.items.toList[i]? = some item →
    ∃ item', s'.items.toList[i]? = some item' ∧ item'.size ≤ item.size

theorem Shrinks.size_le {s s' : Section} (h : s.Shrinks s') : s.items.size ≤ s'.items.size := by
  by_contra hlt
  have hi : s'.items.size < s.items.toList.length := by simpa using hlt
  obtain ⟨item', hitem', -⟩ := h.items s'.items.size _ (List.getElem?_eq_getElem hi)
  rw [List.getElem?_eq_none (by simp)] at hitem'
  cases hitem'

/-- The stretch between two places does not grow. -/
theorem Shrinks.stretch_le {s s' : Section} (h : s.Shrinks s') {i j : Nat} (hij : i ≤ j)
    (hj : j ≤ s.items.size) :
    startOf s'.items.toList j + startOf s.items.toList i ≤
      startOf s.items.toList j + startOf s'.items.toList i := by
  induction hij with
  | refl => omega
  | @step j hij ih =>
    have hlt : j < s.items.toList.length := by simpa using Nat.lt_of_succ_le hj
    have hitem := List.getElem?_eq_getElem hlt
    obtain ⟨item', hitem', hsize⟩ := h.items j _ hitem
    rw [startOf_succ hitem, startOf_succ hitem']
    have := ih (Nat.le_of_succ_le hj)
    omega

theorem index_le {s : Section} {i : Nat} {item : Item} (h : s.items.toList[i]? = some item) :
    i ≤ s.items.size := by
  have hlt := (List.getElem?_eq_some_iff.1 h).1
  rw [Array.length_toList] at hlt
  exact Nat.le_of_lt hlt

theorem startOf_le_extent (s : Section) {i : Nat} (hi : i ≤ s.items.size) :
    startOf s.items.toList i ≤ s.extent :=
  startOf_mono s.items.toList hi

/-- The distance of a branch without an addend, in a section that the address space can hold. -/
theorem toInt_distance {s : Section} (hs : s.extent < 2 ^ 63) {i j : Nat} (hi : i ≤ s.items.size)
    (hj : j ≤ s.items.size) :
    (Int64.ofNat (startOf s.items.toList j) + 0 - Int64.ofNat (startOf s.items.toList i)).toInt =
      (startOf s.items.toList j : Int) - startOf s.items.toList i := by
  have hi' := s.startOf_le_extent hi
  have hj' := s.startOf_le_extent hj
  rw [Int64.add_zero, Int64.toInt_sub, Int64.toInt_ofNat_of_lt (by omega),
    Int64.toInt_ofNat_of_lt (by omega)]
  exact Int.bmod_eq_of_le_mul_two (by omega) (by omega)

/-- **A section that shrinks brings targets nearer.** -/
theorem Shrinks.nearer {s s' : Section} (h : s.Shrinks s') (hs : s.extent < 2 ^ 63)
    (hs' : s'.extent < 2 ^ 63) {i : Nat} (hi : i ≤ s.items.size) {b : Branch}
    (hb : b.offset = 0) : Nearer (s'.distanceAt i b) (s.distanceAt i b) := by
  intro y hy
  obtain ⟨target, htarget, rfl⟩ := Option.map_eq_some_iff.1 hy
  unfold address? at htarget
  split at htarget
  · cases htarget
  · rename_i j hj
    rw [getElem?_offsets] at htarget
    split at htarget
    · rename_i hle
      cases htarget
      have hle' := Nat.le_trans hle h.size_le
      have hi' := Nat.le_trans hi h.size_le
      refine ⟨Int64.ofNat (startOf s'.items.toList j) + b.offset -
        Int64.ofNat (startOf s'.items.toList i), ?_, ?_⟩
      · unfold distanceAt distance? Layout.distance? address?
        rw [h.symbols _ _ hj]
        simp only [getElem?_offsets_of_le hle', Option.map_some]
      · -- Both ends move, and only the stretch between them counts, whichever comes first.
        rw [hb, toInt_distance hs hi hle, toInt_distance hs' hi' hle']
        rcases Nat.le_total i j with hij | hij
        · have := h.stretch_le hij hle
          have := startOf_mono s'.items.toList hij
          omega
        · have := h.stretch_le hij hi
          have := startOf_mono s'.items.toList hij
          omega
    · cases htarget

/-! ### Passes -/

/-- Every branch has a length that is sound for its distance. -/
def Sound (s : Section) : Prop :=
  ∀ (i : Nat) (b : Branch) (relax : Bool), s.items.toList[i]? = some (.branch b relax) →
    b.Sound (s.distanceAt i b)

theorem size_tightenItem_le (s : Section) (offsets : Array Nat) (start : Nat) (item : Item) :
    (s.tightenItem offsets start item).size ≤ item.size := by
  cases item with
  | data bytes fixup => exact Nat.le_refl _
  | branch b relax => exact b.length_tighten_le _

theorem shrinks_tighten (s : Section) : s.Shrinks s.tighten := by
  refine ⟨fun _ _ h => h, ?_⟩
  intro i item hitem
  refine ⟨s.tightenItem s.offsets (startOf s.items.toList i) item, ?_, size_tightenItem_le ..⟩
  rw [getElem?_items_tighten, hitem]
  rfl

theorem extent_tighten_le (s : Section) : s.tighten.extent ≤ s.extent := by
  have := s.shrinks_tighten.stretch_le (Nat.zero_le _) (Nat.le_refl s.items.size)
  rw [startOf_zero, startOf_zero] at this
  rw [extent, extent, size_items_tighten]
  exact this

/-- A branch of a tightened section is a branch of the section, tightened. -/
theorem exists_of_tighten {s : Section} {i : Nat} {b' : Branch} {relax : Bool}
    (h : s.tighten.items.toList[i]? = some (.branch b' relax)) :
    ∃ b, s.items.toList[i]? = some (.branch b relax) ∧ b' = b.tighten (s.distanceAt i b) := by
  rw [getElem?_items_tighten] at h
  obtain ⟨item, hitem, h⟩ := Option.map_eq_some_iff.1 h
  cases item with
  | data bytes fixup => cases h
  | branch b relax' =>
    cases h
    exact ⟨b, hitem, rfl⟩

theorem distanceAt_tighten (s : Section) (i : Nat) (b : Branch) (d : Option Int64) :
    s.distanceAt i (b.tighten d) = s.distanceAt i b := by
  unfold distanceAt Branch.tighten
  split <;> rfl

/-- **One pass** keeps every length sound. -/
theorem Sound.tighten {s : Section} (h : s.Sound) (hs : s.extent < 2 ^ 63) : s.tighten.Sound := by
  intro i b' relax hitem'
  obtain ⟨b, hitem, rfl⟩ := exists_of_tighten hitem'
  have hi := index_le hitem
  rw [distanceAt_tighten]
  refine (h i b relax hitem).tighten.of_nearer fun hoffset => ?_
  rw [Branch.offset_tighten] at hoffset
  exact s.shrinks_tighten.nearer hs (Nat.lt_of_le_of_lt s.extent_tighten_le hs) hi hoffset

/-- **All passes** keep every length sound. -/
theorem Sound.relax {s : Section} (h : s.Sound) (hs : s.extent < 2 ^ 63) (n : Nat) :
    (s.relax n).1.Sound := by
  induction n generalizing s with
  | zero => exact h
  | succ n ih =>
    unfold Section.relax
    dsimp only
    split
    · exact h.tighten hs
    · exact ih (h.tighten hs) (Nat.lt_of_le_of_lt s.extent_tighten_le hs)

theorem state_ne_of_relax {s mid : Section} {n : Nat} (h : s.relax n = (mid, true)) {i : Nat}
    {b : Branch} {relax : Bool} (hb : mid.items.toList[i]? = some (.branch b relax)) :
    b.state ≠ .unresolved := by
  induction n generalizing s with
  | zero => cases h
  | succ n ih =>
    unfold Section.relax at h
    dsimp only at h
    split at h
    · cases h
      obtain ⟨b, -, rfl⟩ := exists_of_tighten hb
      exact b.state_tighten_ne _
    · exact ih h

end Section

/-! ### How many passes there are -/

namespace Item

/-- How many times two bytes can be taken from an item. -/
def slack : Item → Nat
  | .data .. => 0
  | .branch b _ => (b.length - 2) / 2

/-- An item with no more slack than another, and as long if it has as much. -/
def Tighter (item' item : Item) : Prop :=
  item'.slack ≤ item.slack ∧ (item'.slack = item.slack → item'.size = item.size)

theorem sum_slack_of_tighter {items' items : List Item} (h : List.Forall₂ Tighter items' items) :
    (items'.map slack).sum ≤ (items.map slack).sum ∧
      ((items'.map slack).sum = (items.map slack).sum → items'.map size = items.map size) := by
  induction h with
  | nil => exact ⟨Nat.le_refl _, fun _ => rfl⟩
  | cons hhead _ ih =>
    obtain ⟨hslack, hsize⟩ := hhead
    simp only [List.map_cons, List.sum_cons]
    refine ⟨Nat.add_le_add hslack ih.1, fun heq => ?_⟩
    rw [hsize (by omega), ih.2 (by omega)]

theorem sum_slack_le {items : List Item}
    (h : ∀ item ∈ items, item.slack ≤ 3 * item.branch?.toList.length) :
    (items.map slack).sum ≤ 3 * (items.filterMap branch?).length := by
  induction items with
  | nil => exact Nat.le_refl _
  | cons item items ih =>
    obtain ⟨hhead, htail⟩ := List.forall_mem_cons.1 h
    have hrest := ih htail
    rw [List.map_cons, List.sum_cons, List.filterMap_cons]
    cases hb : item.branch? with
    | none =>
      rw [hb] at hhead
      simp only [Option.toList_none, List.length_nil] at hhead ⊢
      omega
    | some b =>
      rw [hb] at hhead
      simp only [Option.toList_some, List.length_cons, List.length_nil] at hhead ⊢
      omega

end Item

namespace Section

/-- How many times two bytes can be taken from a section. -/
def slack (s : Section) : Nat :=
  (s.items.toList.map Item.slack).sum

theorem tighter_tightenItem {s : Section} (h : s.Sound) {i : Nat} {item : Item}
    (hitem : s.items.toList[i]? = some item) :
    (s.tightenItem s.offsets (startOf s.items.toList i) item).Tighter item := by
  cases item with
  | data bytes fixup => exact ⟨Nat.le_refl _, fun _ => rfl⟩
  | branch b relax =>
    have hbefore := (h i b relax hitem).length
    have hafter := (h i b relax hitem).tighten.length
    have hle := b.length_tighten_le (s.distanceAt i b)
    change (Item.branch (b.tighten (s.distanceAt i b)) relax).Tighter (.branch b relax)
    simp only [Item.Tighter, Item.slack, Item.size]
    omega

/-- A pass that changes a size takes two bytes from a branch at least. -/
theorem slack_tighten_lt {s : Section} (h : s.Sound) (hsizes : s.tighten.sizes ≠ s.sizes) :
    s.tighten.slack < s.slack := by
  have htighter : List.Forall₂ Item.Tighter s.tighten.items.toList s.items.toList := by
    refine List.forall₂_iff_get.2 ⟨by simp, ?_⟩
    intro i hi' hi
    have hitem := List.getElem?_eq_getElem hi
    have hitem' := s.getElem?_items_tighten i
    rw [hitem, List.getElem?_eq_getElem hi', Option.map_some, Option.some.injEq] at hitem'
    rw [List.get_eq_getElem, List.get_eq_getElem, hitem']
    exact tighter_tightenItem h hitem
  obtain ⟨hle, heq⟩ := Item.sum_slack_of_tighter htighter
  exact Nat.lt_of_le_of_ne hle fun h => hsizes (heq h)

/-- **Enough passes settle the lengths.** -/
theorem settles_of_slack_lt {s : Section} (h : s.Sound) (hs : s.extent < 2 ^ 63) {n : Nat}
    (hn : s.slack < n) : (s.relax n).2 = true := by
  induction n generalizing s with
  | zero => cases hn
  | succ n ih =>
    unfold Section.relax
    dsimp only
    split
    · rfl
    · rename_i hsizes
      have hslack := slack_tighten_lt h hsizes
      exact ih (h.tighten hs) (Nat.lt_of_le_of_lt s.extent_tighten_le hs) (by omega)

/-- Two bytes can be taken from a branch three times. -/
theorem slack_le {s : Section} (h : s.Sound) : s.slack ≤ 3 * s.branches.length := by
  apply Item.sum_slack_le
  intro item hmem
  cases item with
  | data bytes fixup => exact Nat.zero_le _
  | branch b relax =>
    obtain ⟨i, hi⟩ := List.getElem?_of_mem hmem
    have hlength := (h i b relax hi).length
    change (b.length - 2) / 2 ≤ 3 * 1
    omega

end Section

end RiscvAssembler

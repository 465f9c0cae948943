import Mathlib.Data.List.Forall2
import RiscvAssembler.Proofs.Except
import RiscvAssembler.Proofs.Section.Relaxation

/-!
The lengths that layout settles on. They are a fixed point: each branch is as long as the distance
that the lengths themselves give calls for (`Section.LaidOut.tight`). Several choices of lengths may
be one, as two branches can keep each other short or long. Without addends layout takes the greatest:
however branches are visited, the lengths stay above every fixed point (`Section.Shrinks.visits`), and
they are one when no pass changes them any more.
-/

namespace RiscvAssembler

/-! ### One branch -/

/-- A length that is enough and not more than what the distance calls for is what it calls for. -/
theorem BranchKind.eq_lengthAt_of_reaches {k : BranchKind} {n : Nat} {d : Option Int64}
    (hle : n ≤ k.lengthAt d) (hreaches : k.reaches n d = true)
    (hfar : d = none → k.farLength ≤ n) : n = k.lengthAt d := by
  refine Nat.le_antisymm hle ?_
  cases d with
  | none => exact hfar rfl
  | some d =>
    rcases Branch.length_of_reaches hreaches with rfl | rfl | rfl | rfl
    · exact of_decide_eq_true hreaches
    · exact of_decide_eq_true hreaches
    · have hshort : k = .shortBranch := of_decide_eq_true hreaches
      subst hshort
      simp only [lengthAt]
      split
      · decide
      · split <;> decide
    · have hcases := k.lengthAt_cases (some d)
      omega

theorem Branch.le_length_tighten {b : Branch} {d : Option Int64} {n : Nat}
    (hd : n ≤ b.kind.lengthAt d) (hb : n ≤ b.length) : n ≤ (b.tighten d).length := by
  unfold tighten
  split
  · exact hb
  · exact Nat.le_min.2 ⟨hd, hb⟩

namespace Section

/-! ### Sections of the same contents -/

/-- Sections that differ in the lengths and the states of their branches only. -/
structure Alike (s t : Section) : Prop where
  symbols : t.symbols = s.symbols
  items : t.items.toList.map Item.appended = s.items.toList.map Item.appended

namespace Alike

variable {s t u : Section}

theorem refl (s : Section) : s.Alike s := ⟨rfl, rfl⟩

theorem symm (h : s.Alike t) : t.Alike s := ⟨h.symbols.symm, h.items.symm⟩

theorem trans (h : s.Alike t) (h' : t.Alike u) : s.Alike u :=
  ⟨h'.symbols.trans h.symbols, h'.items.trans h.items⟩

theorem size_items (h : s.Alike t) : t.items.size = s.items.size := by
  simpa using congrArg List.length h.items

theorem getElem? (h : s.Alike t) {i : Nat} {item : Item} (hitem : s.items.toList[i]? = some item) :
    ∃ item', t.items.toList[i]? = some item' ∧ item'.appended = item.appended := by
  have happended := congrArg (·[i]?) h.items
  simp only [List.getElem?_map, hitem, Option.map_some] at happended
  exact Option.map_eq_some_iff.1 happended

/-- Whether a target is in sight does not depend on lengths. -/
theorem distanceAt_eq_none_iff (h : s.Alike t) (i : Nat) (b : Branch) :
    t.distanceAt i b = none ↔ s.distanceAt i b = none := by
  unfold distanceAt distance? Layout.distance? address?
  rw [Option.map_eq_none_iff, Option.map_eq_none_iff, h.symbols]
  cases s.symbols[b.target]? with
  | none => exact Iff.rfl
  | some j =>
    simp only [getElem?_offsets, h.size_items]
    split <;> simp

/-- A branch has a counterpart of the same kind and target. -/
theorem branch (h : s.Alike t) {i : Nat} {b : Branch} {relax : Bool}
    (hitem : s.items.toList[i]? = some (.branch b relax)) :
    ∃ b', t.items.toList[i]? = some (.branch b' relax) ∧ b'.kind = b.kind ∧
      b'.offset = b.offset ∧ ∀ u : Section, u.distanceAt i b' = u.distanceAt i b := by
  obtain ⟨item', hitem', happended⟩ := h.getElem? hitem
  cases item' with
  | data bytes fixup => cases happended
  | branch b' relax' =>
    simp only [Item.appended, Branch.new, Item.branch.injEq, Branch.mk.injEq] at happended
    obtain ⟨⟨hkind, -, htarget, hoffset, -, -⟩, rfl⟩ := happended
    refine ⟨b', hitem', hkind, hoffset, fun u => ?_⟩
    rw [distanceAt, distanceAt, htarget, hoffset]

/-- With the same sizes there are the same distances. -/
theorem distanceAt_eq (h : s.Alike t) (hsizes : t.sizes = s.sizes) (i : Nat) (b : Branch) :
    t.distanceAt i b = s.distanceAt i b := by
  unfold distanceAt distance? Layout.distance? address?
  rw [h.symbols, offsets_congr hsizes, startOf_congr hsizes]

end Alike

/-! ### Fixed points -/

/-- Every branch is as long as its distance calls for. -/
def Tight (s : Section) : Prop :=
  ∀ (i : Nat) (b : Branch) (relax : Bool), s.items.toList[i]? = some (.branch b relax) →
    b.length = b.kind.lengthAt (s.distanceAt i b)

/-- No branch is longer than its distance calls for. -/
def Compact (s : Section) : Prop :=
  ∀ (i : Nat) (b : Branch) (relax : Bool), s.items.toList[i]? = some (.branch b relax) →
    b.length ≤ b.kind.lengthAt (s.distanceAt i b)

theorem Tight.compact {s : Section} (h : s.Tight) : s.Compact :=
  fun i b relax hitem => (h i b relax hitem).le

theorem getElem?_sizes {s : Section} {i : Nat} {item : Item}
    (h : s.items.toList[i]? = some item) : s.sizes[i]? = some item.size := by
  rw [sizes, List.getElem?_map, h]
  rfl

/-- Whether a section is compact is seen from its sizes. -/
theorem Compact.of_sizes {s t : Section} (h : s.Compact) (halike : s.Alike t)
    (hsizes : t.sizes = s.sizes) : t.Compact := by
  intro i b relax hitem
  obtain ⟨b₀, hitem₀, hkind, -, hdistance⟩ := halike.symm.branch hitem
  have hlength : some b.length = some b₀.length :=
    (getElem?_sizes hitem).symm.trans (hsizes ▸ getElem?_sizes hitem₀)
  rw [Option.some.inj hlength, ← hkind, halike.distanceAt_eq hsizes, ← hdistance]
  exact h i b₀ relax hitem₀

/-- A branch that is not emitted yet, and that reserves enough if its target is not in sight. -/
def Open (s : Section) : Prop :=
  ∀ (i : Nat) (b : Branch) (relax : Bool), s.items.toList[i]? = some (.branch b relax) →
    b.state ≠ .emitted ∧ (s.distanceAt i b = none → b.kind.farLength ≤ b.length)

/-! ### Visits -/

/-- The section with some of its branches tightened, for the current lengths. -/
def visit (s : Section) (chosen : Nat → Bool) : Section :=
  { s with items := (s.items.toList.mapIdx fun i item =>
      if chosen i then s.tightenItem s.offsets (startOf s.items.toList i) item else item).toArray }

theorem getElem?_items_visit (s : Section) (chosen : Nat → Bool) (i : Nat) :
    (s.visit chosen).items.toList[i]? = s.items.toList[i]?.map fun item =>
      if chosen i then s.tightenItem s.offsets (startOf s.items.toList i) item else item := by
  simp [visit, List.getElem?_mapIdx]

/-- A pass visits every branch. -/
theorem visit_all (s : Section) : s.visit (fun _ => true) = s.tighten := by
  have hitems : (s.visit fun _ => true).items = s.tighten.items := by
    refine Array.toList_inj.1 (List.ext_getElem? fun i => ?_)
    rw [getElem?_items_visit, getElem?_items_tighten]
    rfl
  rw [Section.mk.injEq]
  exact ⟨hitems, rfl⟩

theorem alike_visit (s : Section) (chosen : Nat → Bool) : s.Alike (s.visit chosen) := by
  refine ⟨rfl, List.ext_getElem? fun i => ?_⟩
  rw [List.getElem?_map, List.getElem?_map, getElem?_items_visit, Option.map_map]
  congr 1
  funext item
  simp only [Function.comp_apply]
  split
  · exact appended_tightenItem s _ _ item
  · rfl

theorem shrinks_visit (s : Section) (chosen : Nat → Bool) : s.Shrinks (s.visit chosen) := by
  refine ⟨fun _ _ h => h, fun i item hitem => ?_⟩
  refine ⟨_, by rw [getElem?_items_visit, hitem, Option.map_some], ?_⟩
  split
  · exact size_tightenItem_le s _ _ item
  · exact Nat.le_refl _

/-- A branch after a visit is as it was before, or tightened. -/
theorem exists_of_visit {s : Section} {chosen : Nat → Bool} {i : Nat} {b' : Branch} {relax : Bool}
    (h : (s.visit chosen).items.toList[i]? = some (.branch b' relax)) :
    ∃ b, s.items.toList[i]? = some (.branch b relax) ∧
      (b' = b ∨ b' = b.tighten (s.distanceAt i b)) := by
  rw [getElem?_items_visit] at h
  obtain ⟨item, hitem, h⟩ := Option.map_eq_some_iff.1 h
  split at h
  · cases item with
    | data bytes fixup => cases h
    | branch b relax' =>
      cases h
      exact ⟨b, hitem, .inr rfl⟩
  · exact ⟨b', h ▸ hitem, .inl rfl⟩

/-- One visit keeps a section open. -/
theorem Open.visit {s : Section} (h : s.Open) (chosen : Nat → Bool) : (s.visit chosen).Open := by
  intro i b' relax hitem'
  obtain ⟨b, hitem, hb⟩ := exists_of_visit hitem'
  obtain ⟨hstate, hfar⟩ := h i b relax hitem
  rw [(s.alike_visit chosen).distanceAt_eq_none_iff]
  rcases hb with rfl | rfl
  · exact ⟨hstate, hfar⟩
  · rw [distanceAt_tighten, Branch.tighten, if_neg hstate]
    refine ⟨BranchState.noConfusion, fun hnone => Nat.le_min.2 ⟨?_, hfar hnone⟩⟩
    rw [hnone]
    exact Nat.le_refl _

/-- **One visit stays above every compact choice of lengths.** The distances are no nearer than those
of the shorter section, so they call for no less. -/
theorem Shrinks.visit {s t : Section} (h : s.Shrinks t) (halike : s.Alike t) (ht : t.Compact)
    (hzero : ∀ b ∈ s.branches, b.offset = 0) (hs : s.extent < 2 ^ 63) (ht' : t.extent < 2 ^ 63)
    (chosen : Nat → Bool) : (s.visit chosen).Shrinks t := by
  refine ⟨h.symbols, fun i item' hitem' => ?_⟩
  rw [getElem?_items_visit] at hitem'
  obtain ⟨item, hitem, rfl⟩ := Option.map_eq_some_iff.1 hitem'
  obtain ⟨itemₜ, hitemₜ, hsize⟩ := h.items i item hitem
  refine ⟨itemₜ, hitemₜ, ?_⟩
  split
  · cases item with
    | data bytes fixup => exact hsize
    | branch b relax =>
      obtain ⟨bₜ, hbₜ, hkind, -, hdistance⟩ := halike.branch hitem
      cases hitemₜ.symm.trans hbₜ
      have hoffset : b.offset = 0 :=
        hzero b (List.mem_filterMap.2 ⟨_, List.mem_of_getElem? hitem, rfl⟩)
      have hnearer := h.nearer hs ht' (index_le hitem) hoffset
      have hcompact := ht i bₜ relax hitemₜ
      rw [hkind, hdistance] at hcompact
      exact Branch.le_length_tighten
        (Nat.le_trans hcompact (b.kind.lengthAt_le_of_nearer hnearer)) hsize
  · exact hsize

/-! ### Runs of visits -/

theorem Shrinks.extent_le {s t : Section} (h : s.Shrinks t) (hsize : t.items.size = s.items.size) :
    t.extent ≤ s.extent := by
  have hstretch := h.stretch_le (Nat.zero_le _) (Nat.le_refl s.items.size)
  rw [startOf_zero, startOf_zero] at hstretch
  rw [extent, extent, hsize]
  exact hstretch

theorem Shrinks.sizes_le {s t : Section} (h : s.Shrinks t) (halike : s.Alike t) :
    List.Forall₂ (· ≤ ·) t.sizes s.sizes := by
  refine List.forall₂_iff_get.2 ⟨by simp [sizes, halike.size_items], fun i hi' hi => ?_⟩
  have hlt : i < s.items.toList.length := by simpa [sizes] using hi
  obtain ⟨item', hitem', hsize⟩ := h.items i _ (List.getElem?_eq_getElem hlt)
  have hthere := getElem?_sizes hitem'
  have hhere := getElem?_sizes (List.getElem?_eq_getElem hlt)
  rw [List.getElem?_eq_getElem hi'] at hthere
  rw [List.getElem?_eq_getElem hi] at hhere
  rw [List.get_eq_getElem, List.get_eq_getElem, Option.some.inj hthere, Option.some.inj hhere]
  exact hsize

theorem eq_of_forall₂_le {xs ys : List Nat} (h : List.Forall₂ (· ≤ ·) xs ys)
    (h' : List.Forall₂ (· ≤ ·) ys xs) : xs = ys := by
  have hback : List.Forall₂ (fun x y => y ≤ x) xs ys := h'.flip
  rw [← List.forall₂_eq_eq_eq]
  exact List.Forall₂.mp (fun _ _ hle hge => Nat.le_antisymm hle hge) h hback

theorem Alike.offset_eq_zero {s t : Section} (h : s.Alike t)
    (hzero : ∀ b ∈ s.branches, b.offset = 0) : ∀ b ∈ t.branches, b.offset = 0 := by
  intro b hb
  obtain ⟨item, hitem, hbranch⟩ := List.mem_filterMap.1 hb
  cases item with
  | data bytes fixup => cases hbranch
  | branch b' relax =>
    cases hbranch
    obtain ⟨i, hi⟩ := List.getElem?_of_mem hitem
    obtain ⟨b₀, hb₀, -, hoffset, -⟩ := h.symm.branch hi
    rw [← hoffset]
    exact hzero b₀ (List.mem_filterMap.2 ⟨_, List.mem_of_getElem? hb₀, rfl⟩)

/-- The section after visits in some order. -/
def visits (s : Section) (order : List (Nat → Bool)) : Section :=
  order.foldl visit s

theorem alike_visits (s : Section) (order : List (Nat → Bool)) : s.Alike (s.visits order) := by
  induction order generalizing s with
  | nil => exact .refl s
  | cons chosen order ih => exact (s.alike_visit chosen).trans (ih (s.visit chosen))

theorem Open.visits {s : Section} (h : s.Open) (order : List (Nat → Bool)) :
    (s.visits order).Open := by
  induction order generalizing s with
  | nil => exact h
  | cons chosen order ih => exact ih (h.visit chosen)

/-- **All visits stay above every compact choice of lengths.** -/
theorem Shrinks.visits {s t : Section} (h : s.Shrinks t) (halike : s.Alike t) (ht : t.Compact)
    (hzero : ∀ b ∈ s.branches, b.offset = 0) (hs : s.extent < 2 ^ 63)
    (order : List (Nat → Bool)) : (s.visits order).Shrinks t := by
  have ht' : t.extent < 2 ^ 63 := Nat.lt_of_le_of_lt (h.extent_le halike.size_items) hs
  induction order generalizing s with
  | nil => exact h
  | cons chosen order ih =>
    have hvisit := s.alike_visit chosen
    refine ih (h.visit halike ht hzero hs ht' chosen) (hvisit.symm.trans halike)
      (hvisit.offset_eq_zero hzero) ?_
    exact Nat.lt_of_le_of_lt ((s.shrinks_visit chosen).extent_le hvisit.size_items) hs

/-- If a pass changes no length, no branch is longer than it has to be. -/
theorem compact_of_settled {s : Section} (hopen : s.Open) (h : s.tighten.sizes = s.sizes) :
    s.Compact := by
  intro i b relax hitem
  have hafter : s.tighten.items.toList[i]? =
      some (.branch (b.tighten (s.distanceAt i b)) relax) := by
    rw [getElem?_items_tighten, hitem]
    rfl
  have hlength : some (b.tighten (s.distanceAt i b)).length = some b.length :=
    (getElem?_sizes hafter).symm.trans (h ▸ getElem?_sizes hitem)
  have hmin := Option.some.inj hlength
  rw [Branch.tighten, if_neg (hopen i b relax hitem).1] at hmin
  exact hmin.ge.trans (Nat.min_le_left _ _)

/-- Passes that settle are visits after which one more pass changes nothing. -/
theorem exists_visits_of_relax {s mid : Section} {n : Nat} (h : s.relax n = (mid, true)) :
    ∃ order, mid = (s.visits order).tighten ∧ mid.sizes = (s.visits order).sizes := by
  induction n generalizing s with
  | zero => cases h
  | succ n ih =>
    unfold Section.relax at h
    dsimp only at h
    split at h
    · rename_i hsizes
      cases h
      exact ⟨[], rfl, hsizes⟩
    · obtain ⟨order, hmid, hsizes⟩ := ih h
      have hfirst : s.visits ((fun _ => true) :: order) = s.tighten.visits order := by
        rw [visits, List.foldl_cons, visit_all]
        rfl
      exact ⟨(fun _ => true) :: order, hfirst ▸ hmid, hfirst ▸ hsizes⟩

/-! ### New sections -/

/-- A section whose items are as they were appended. -/
def Fresh (s : Section) : Prop :=
  s.items.toList.map Item.appended = s.items.toList

theorem fresh_build (ops : List SectionOp) : (build ops).Fresh :=
  map_appended_build ops

theorem Fresh.eq_new {s : Section} (h : s.Fresh) {i : Nat} {b : Branch} {relax : Bool}
    (hitem : s.items.toList[i]? = some (.branch b relax)) :
    b = .new b.kind b.insn b.target b.offset := by
  have happended := congrArg (·[i]?) h
  simp only [List.getElem?_map, hitem, Option.map_some, Option.some.injEq] at happended
  exact (Item.branch.inj happended).1.symm

theorem Fresh.isOpen {s : Section} (h : s.Fresh) : s.Open := by
  intro i b relax hitem
  rw [h.eq_new hitem]
  refine ⟨BranchState.noConfusion, fun _ => ?_⟩
  show b.kind.farLength ≤ 8
  cases b.kind <;> decide

/-- A new section is longer than every compact choice of lengths. -/
theorem Fresh.shrinks {s t : Section} (h : s.Fresh) (halike : s.Alike t) (ht : t.Compact) :
    s.Shrinks t := by
  refine ⟨fun name i hname => halike.symbols ▸ hname, fun i item hitem => ?_⟩
  obtain ⟨item', hitem', happended⟩ := halike.getElem? hitem
  refine ⟨item', hitem', ?_⟩
  cases item with
  | data bytes fixup =>
    cases item' with
    | data bytes' fixup' =>
      cases happended
      exact Nat.le_refl _
    | branch b' relax' => cases happended
  | branch b relax =>
    obtain ⟨b', hb', -⟩ := halike.branch hitem
    cases hitem'.symm.trans hb'
    have hcompact := ht i b' relax hitem'
    have hcases := b'.kind.lengthAt_cases (t.distanceAt i b')
    rw [h.eq_new hitem]
    show b'.length ≤ 8
    omega

/-- **The lengths of a layout are a fixed point** that visits lead to. -/
theorem LaidOut.tight {s s' mid : Section} {l : Layout} {pieces : List Piece}
    (h : LaidOut s s' l mid pieces) (hfresh : s.Fresh) :
    s'.Tight ∧ ∃ order, s'.sizes = (s.visits order).sizes := by
  obtain ⟨order, hmid, hsettled⟩ := exists_visits_of_relax h.settled
  have hopen := hfresh.isOpen.visits order
  have hsizes : s'.sizes = (s.visits order).sizes := h.sizes.trans hsettled
  have halike : s.Alike s' := ⟨h.symbols, h.appended⟩
  have hvisits : (s.visits order).Alike s' := (s.alike_visits order).symm.trans halike
  have hcompact : s'.Compact :=
    (compact_of_settled hopen (hmid ▸ hsettled)).of_sizes hvisits hsizes
  have hsame : mid.Alike s' := by
    rw [hmid, ← visit_all]
    exact ((s.visits order).alike_visit _).symm.trans hvisits
  refine ⟨fun i b relax hitem => ?_, order, hsizes⟩
  have hreaches : b.kind.reaches b.length (s'.distanceAt i b) = true := by
    obtain ⟨piece, -, code, -, hreaches, -⟩ := h.placed.getElem? hitem
    rw [hsame.distanceAt_eq h.sizes, distanceAt, ← startOf_congr h.sizes]
    rwa [Nat.zero_add] at hreaches
  refine BranchKind.eq_lengthAt_of_reaches (hcompact i b relax hitem) hreaches fun hnone => ?_
  -- A target out of sight was out of sight in every pass.
  obtain ⟨b₀, hitem₀, hkind, -, hdistance⟩ := hvisits.symm.branch hitem
  have hlength : some b.length = some b₀.length :=
    (getElem?_sizes hitem).symm.trans (hsizes ▸ getElem?_sizes hitem₀)
  rw [Option.some.inj hlength, ← hkind]
  refine (hopen i b₀ relax hitem₀).2 ?_
  rw [hdistance, ← hvisits.distanceAt_eq_none_iff, hnone]

/-- **A new section that is laid out gets the greatest fixed point.** Every branch is as long as its
distance calls for. If no branch has an addend, and addresses do not wrap around, no other choice of
lengths that is so in itself has a longer branch; and branches visited in any order end with these
lengths once no further pass changes one. -/
theorem layout_is_greatest_fixed_point (ops : List SectionOp) {l : Layout}
    (h : (build ops).layout.2 = .ok l) :
    (build ops).Alike (build ops).layout.1 ∧ (build ops).layout.1.Tight ∧
    ((∀ b ∈ (build ops).branches, b.offset = 0) → (build ops).extent < 2 ^ 63 →
      (∀ t, (build ops).Alike t → t.Tight →
        List.Forall₂ (· ≤ ·) t.sizes (build ops).layout.1.sizes) ∧
      ∀ order : List (Nat → Bool),
        ((build ops).visits order).tighten.sizes = ((build ops).visits order).sizes →
          ((build ops).visits order).sizes = (build ops).layout.1.sizes) := by
  have hfresh := fresh_build ops
  obtain ⟨mid, pieces, hlaid⟩ := laidOut_of_layout (Prod.ext rfl h)
  have halike : (build ops).Alike (build ops).layout.1 := ⟨hlaid.symbols, hlaid.appended⟩
  obtain ⟨htight, order, hsizes⟩ := hlaid.tight hfresh
  refine ⟨halike, htight, fun hzero hextent => ?_⟩
  have habove : ∀ (order : List (Nat → Bool)) (t : Section), (build ops).Alike t → t.Compact →
      List.Forall₂ (· ≤ ·) t.sizes ((build ops).visits order).sizes := by
    intro order t ht hcompact
    have hshrinks := (hfresh.shrinks ht hcompact).visits ht hcompact hzero hextent order
    exact hshrinks.sizes_le (((build ops).alike_visits order).symm.trans ht)
  refine ⟨fun t ht htight => hsizes ▸ habove order t ht htight.compact, fun order' hsettled => ?_⟩
  have hcompact := compact_of_settled (hfresh.isOpen.visits order') hsettled
  refine eq_of_forall₂_le ?_ (habove order' _ halike htight.compact)
  exact hsizes ▸ habove order _ ((build ops).alike_visits order') hcompact

/-- Two short branches around each other's target: both with two bytes would reach, and so would
both with four. -/
def circularOps : List SectionOp :=
  [.define "start", .data (List.replicate 4 0) none,
    .branch 0xc001 .rvcBranch (.symbol "end" 0) true, .data (List.replicate 250 0) none,
    .branch 0xc001 .rvcBranch (.symbol "start" 0) true, .define "end"]

theorem circular_layout_is_greatest :
    ∃ l, (build circularOps).layout.2 = .ok l ∧
      (∀ b ∈ (build circularOps).branches, b.offset = 0) ∧ (build circularOps).extent < 2 ^ 63 ∧
      (build circularOps).layout.1.sizes = [4, 4, 250, 4] ∧ (build circularOps).layout.1.Tight ∧
      ∀ t, (build circularOps).Alike t → t.Tight →
        List.Forall₂ (· ≤ ·) t.sizes [4, 4, 250, 4] := by
  obtain ⟨l, hl⟩ : ∃ l, (build circularOps).layout.2 = .ok l :=
    exists_ok_of_isOk (by decide +kernel)
  have hzero : ∀ b ∈ (build circularOps).branches, b.offset = 0 := by decide +kernel
  have hextent : (build circularOps).extent < 2 ^ 63 := by decide +kernel
  have hsizes : (build circularOps).layout.1.sizes = [4, 4, 250, 4] := by decide +kernel
  obtain ⟨-, htight, hgreatest⟩ := layout_is_greatest_fixed_point circularOps hl
  exact ⟨l, hl, hzero, hextent, hsizes, htight, hsizes ▸ (hgreatest hzero hextent).1⟩

end Section

end RiscvAssembler

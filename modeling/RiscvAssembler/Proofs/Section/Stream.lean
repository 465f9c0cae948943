import Mathlib.Data.List.Forall2
import RiscvAssembler.Proofs.Branch.Store
import RiscvAssembler.Proofs.Section.Fragments

/-!
The stored form of a section against its items. A stream stores a section (`Stores`) if its
fragments hold the items, its collection the branches, and each symbol stands at the place after the
items before it. Every operation keeps this (`Stores.apply`), and so does layout, which gives the
same on both (`Stores.layout`): each pass tightens the branches of the items, and emission gives
their bytes. A place that was given while the section grew has the address of its item then
(`Stores.address?_positionOf?`).
-/

namespace RiscvAssembler

/-! ### Operations -/

namespace Stream

/-- The stream after an operation. A refused operation leaves it as it was. -/
def apply (st : Stream) : SectionOp → Stream
  | .data bytes fixup => (st.appendData bytes fixup).2
  | .branch insn kind target relax =>
    ((st.appendBranch insn kind target relax).toOption.map (·.2.2)).getD st
  | .define name => ((st.define name).toOption.map (·.2)).getD st

/-- The stream that operations grow from nothing. -/
def build (ops : List SectionOp) : Stream :=
  ops.foldl apply empty

/-- The place after the first items of a section. -/
def placeAfter (items : List Item) (i : Nat) : Position :=
  (ofItems (items.take i)).position

/-- A stream stores a section. -/
structure Stores (st : Stream) (s : Section) : Prop where
  fragments : st.fragments = (ofItems s.items.toList).fragments
  branches : st.branches.branches.toList = s.branches
  symbols : ∀ name : String, st.symbols[name]? = s.symbols[name]?.map (placeAfter s.items.toList)
  bounded : s.Bounded

variable {st st' : Stream} {s s' : Section}

theorem position_congr (h : st.fragments = st'.fragments) : st.position = st'.position := by
  unfold position
  rw [h]

theorem position_eq_placeAfter (s : Section) :
    s.position = placeAfter s.items.toList s.items.size := by
  rw [placeAfter, List.take_of_length_le (by simp)]
  rfl

/-- What an item does to the fragments, and its place, depend on nothing but them and the next
number. -/
theorem append_congr {item item' : Item} (h : st.fragments = st'.fragments)
    (hsize : st.branches.branches.size = st'.branches.branches.size)
    (happended : item.appended = item'.appended) :
    (st.append item).1 = (st'.append item').1 ∧
      (st.append item).2.fragments = (st'.append item').2.fragments := by
  cases item with
  | data bytes fixup =>
    cases item' with
    | data bytes' fixup' =>
      cases happended
      exact ⟨position_congr h, by simp only [append, appendData, position_congr h, h]⟩
    | branch b' relax' => cases happended
  | branch b relax =>
    cases item' with
    | data bytes' fixup' => cases happended
    | branch b' relax' =>
      obtain ⟨-, rfl⟩ := Item.branch.inj happended
      simp only [append, addBranch, h, hsize, and_self]

theorem appendBranch_symbol (st : Stream) (insn : Word) (kind : RelocType) (name : String)
    (addend : Int64) (relax : Bool) :
    st.appendBranch insn kind (.symbol name addend) relax =
      match BranchKind.ofReloc? kind with
      | none => .error (.impossible (.notABranch kind))
      | some k =>
        .ok (st.branches.branches.size, st.append (.branch (.new k insn name addend) relax)) := by
  simp only [appendBranch, BranchStore.create, BranchStore.call, BranchStoreM.create_run]
  cases BranchKind.ofReloc? kind <;> rfl

/-- An operation appends its item. -/
theorem apply_of_item? {op : SectionOp} {item : Item} (h : op.item? = some item) (st : Stream) :
    st.apply op = (st.append item).2 := by
  cases op with
  | data bytes fixup =>
    cases h
    rfl
  | branch insn kind target relax =>
    cases target with
    | symbol name addend =>
      obtain ⟨k, hk, rfl⟩ := Option.map_eq_some_iff.1 h
      simp [apply, appendBranch_symbol, hk, Except.toOption]
    | constant v => cases h
    | register r => cases h
  | define name => cases h

theorem apply_branch_of_none {insn : Word} {kind : RelocType} {target : Expr} {relax : Bool}
    (h : SectionOp.item? (.branch insn kind target relax) = none) (st : Stream) :
    st.apply (.branch insn kind target relax) = st := by
  cases target with
  | symbol name addend =>
    have hk : BranchKind.ofReloc? kind = none := Option.map_eq_none_iff.1 h
    simp [apply, appendBranch_symbol, hk, Except.toOption]
  | constant v => rfl
  | register r => rfl

namespace Stores

theorem empty : Stores .empty .empty where
  fragments := rfl
  branches := rfl
  symbols name := by simp [Stream.empty, Section.empty]
  bounded name i h := by simp [Section.empty] at h

theorem append (h : Stores st s) (item : Item) : Stores (st.append item).2 (s.push item) where
  fragments := by
    have hsize : st.branches.branches.size = (ofItems s.items.toList).branches.branches.size := by
      rw [← Array.length_toList, ← Array.length_toList, h.branches, branches_ofItems]
      rfl
    rw [(append_congr h.fragments hsize rfl).2, ← ofItems_concat, Section.push,
      Array.toList_push]
  branches := by
    rw [branches_append, h.branches, Section.branches, Section.branches, Section.push,
      Array.toList_push, List.filterMap_append]
    cases hb : item.branch? <;> simp [hb]
  symbols name := by
    have hsymbols : (st.append item).2.symbols = st.symbols := by cases item <;> rfl
    rw [hsymbols, h.symbols]
    refine Option.map_congr fun i hi => ?_
    have hle : i ≤ s.items.toList.length := h.bounded name i hi
    rw [placeAfter, placeAfter, Section.push, Array.toList_push, List.take_append_of_le_length hle]
  bounded name i hi := by
    have := h.bounded name i hi
    simp only [Section.push, Array.size_push]
    omega

theorem position (h : Stores st s) : st.position = s.position :=
  position_congr h.fragments

theorem defines (h : Stores st s) (name : String) : st.defines name = s.defines name := by
  rw [Stream.defines, Section.defines, Std.TreeMap.contains_eq_isSome_getElem?,
    Std.TreeMap.contains_eq_isSome_getElem?, h.symbols, Option.isSome_map]

theorem define (h : Stores st s) (name : String) :
    Stores (st.apply (.define name)) (s.apply (.define name)) := by
  have hdefines := h.defines name
  cases hd : s.defines name with
  | true =>
    rw [Section.apply_define_of_defines hd]
    simpa [apply, Stream.define, hdefines.trans hd, Except.toOption] using h
  | false =>
    have hbounded := h.bounded.apply (.define name)
    rw [Section.apply_define_of_not_defines hd] at hbounded ⊢
    have hstream : st.apply (.define name) =
        { st with symbols := st.symbols.insert name st.position } := by
      simp [apply, Stream.define, hdefines.trans hd, Except.toOption]
    rw [hstream]
    refine ⟨h.fragments, h.branches, fun name' => ?_, hbounded⟩
    rw [Std.TreeMap.getElem?_insert, Std.TreeMap.getElem?_insert]
    split
    · rw [h.position, position_eq_placeAfter]
      rfl
    · exact h.symbols name'

/-- **Every operation keeps the two in step.** -/
theorem apply (h : Stores st s) (op : SectionOp) : Stores (st.apply op) (s.apply op) := by
  cases hop : op.item? with
  | some item =>
    have hsection : s.apply op = s.push item := by
      cases op with
      | data bytes fixup =>
        cases hop
        rfl
      | branch insn kind target relax => rw [Section.apply_branch, hop]
      | define name => cases hop
    rw [apply_of_item? hop, hsection]
    exact h.append item
  | none =>
    cases op with
    | data bytes fixup => cases hop
    | branch insn kind target relax =>
      rw [apply_branch_of_none hop, Section.apply_branch, hop]
      exact h
    | define name => exact h.define name

theorem foldl_apply (h : Stores st s) (ops : List SectionOp) :
    Stores (ops.foldl Stream.apply st) (ops.foldl Section.apply s) := by
  induction ops generalizing st s with
  | nil => exact h
  | cons op ops ih => exact ih (h.apply op)

theorem build (ops : List SectionOp) : Stores (Stream.build ops) (Section.build ops) :=
  foldl_apply empty ops

end Stores

/-! ### Sections with other lengths -/

theorem fragments_ofItems_congr {items items' : List Item}
    (h : items.map Item.appended = items'.map Item.appended) :
    (ofItems items).fragments = (ofItems items').fragments ∧
      (ofItems items).branches.branches.size = (ofItems items').branches.branches.size := by
  induction items using List.reverseRecOn generalizing items' with
  | nil =>
    obtain rfl : items' = [] := by simpa using h.symm
    exact ⟨rfl, rfl⟩
  | append_singleton items item ih =>
    rw [List.map_append] at h
    obtain ⟨front, last, rfl, hfront, hlast⟩ := List.map_eq_append_iff.1 h.symm
    obtain ⟨item', rfl, hitem⟩ := List.map_eq_singleton_iff.1 hlast
    obtain ⟨hfragments, hsize⟩ := ih hfront.symm
    rw [ofItems_concat, ofItems_concat]
    refine ⟨(append_congr hfragments hsize hitem.symm).2, ?_⟩
    rw [← Array.length_toList, ← Array.length_toList] at hsize ⊢
    rw [branches_append, branches_append, List.length_append, List.length_append, hsize]
    cases item <;> cases item' <;> first | rfl | cases hitem

/-- Layout changes the lengths and states of branches only, so the same outline stores the section
that it leaves. -/
theorem Stores.of_appended {o : Outline} {branches branches' : BranchStore}
    (h : Stores ⟨o, branches⟩ s) (hsymbols : s'.symbols = s.symbols)
    (hitems : s'.items.toList.map Item.appended = s.items.toList.map Item.appended)
    (hbranches : branches'.branches.toList = s'.branches) : Stores ⟨o, branches'⟩ s' where
  fragments := h.fragments.trans (fragments_ofItems_congr hitems).1.symm
  branches := hbranches
  symbols name := by
    rw [hsymbols]
    refine (h.symbols name).trans (Option.map_congr fun i _ => ?_)
    have htake : (s'.items.toList.take i).map Item.appended =
        (s.items.toList.take i).map Item.appended := by
      rw [List.map_take, List.map_take, hitems]
    exact position_congr (fragments_ofItems_congr htake).1.symm
  bounded name i hi := by
    have hsize : s'.items.size = s.items.size := by simpa using congrArg List.length hitems
    rw [hsymbols] at hi
    rw [hsize]
    exact h.bounded name i hi

/-- **A place that was given stays the place of its item**, whatever is appended later and whichever
lengths are chosen. -/
theorem positionOf?_of_isPrefix
    (h : s.items.toList.map Item.appended <+: s'.items.toList.map Item.appended) {i : Nat}
    {p : Position} (hp : s.positionOf? i = some p) : s'.positionOf? i = some p := by
  obtain ⟨item, hitem, rfl⟩ := Option.map_eq_some_iff.1 hp
  obtain ⟨hlt, -⟩ := Array.getElem?_eq_some_iff.1 hitem
  obtain ⟨rest, hrest⟩ := h
  have hlength : i < (s.items.toList.map Item.appended).length := by simpa using hlt
  have htake : (s'.items.toList.take i).map Item.appended =
      (s.items.toList.take i).map Item.appended := by
    rw [List.map_take, ← hrest, List.take_append_of_le_length (Nat.le_of_lt hlength), List.map_take]
  have hnext : s'.items[i]?.map Item.appended = some item.appended := by
    rw [← Array.getElem?_toList, ← List.getElem?_map, ← hrest, List.getElem?_append_left hlength,
      List.getElem?_map, Array.getElem?_toList, hitem, Option.map_some]
  obtain ⟨item', hitem', happended⟩ := Option.map_eq_some_iff.1 hnext
  obtain ⟨hfragments, hsize⟩ := fragments_ofItems_congr htake
  rw [Section.positionOf?, hitem', Option.map_some,
    (append_congr hfragments hsize happended).1]

end Stream

/-! ### Passes -/

theorem Item.filterMap_branch?_cons (item : Item) (items : List Item) :
    (item :: items).filterMap branch? = item.branch?.toList ++ items.filterMap branch? := by
  cases h : item.branch? <;> simp [h]

theorem Item.length_branch? {item item' : Item} (h : item'.appended = item.appended) :
    item'.branch?.toList.length = item.branch?.toList.length := by
  cases item <;> cases item' <;> first | rfl | cases h

namespace Section

/-- Items from an address on, with the lengths of their branches chosen anew. -/
def tightenFrom (s : Section) (offsets : Array Nat) : (start : Nat) → List Item → List Item
  | _, [] => []
  | start, item :: items =>
    s.tightenItem offsets start item :: s.tightenFrom offsets (start + item.size) items

theorem getElem?_tightenFrom (s : Section) (offsets : Array Nat) (start : Nat) (items : List Item)
    (i : Nat) : (s.tightenFrom offsets start items)[i]? =
      items[i]?.map (s.tightenItem offsets (start + startOf items i)) := by
  induction items generalizing start i with
  | nil => rfl
  | cons item items ih =>
    cases i with
    | zero => simp [tightenFrom]
    | succ i => simp [tightenFrom, ih, Nat.add_assoc]

theorem items_tighten (s : Section) :
    s.tighten.items.toList = s.tightenFrom s.offsets 0 s.items.toList := by
  refine List.ext_getElem? fun i => ?_
  rw [getElem?_items_tighten, getElem?_tightenFrom, Nat.zero_add]

end Section

namespace Stream

variable {s s' : Section} {o : Outline} {branches : BranchStore}

theorem Stores.isPrefix (h : Stores ⟨o, branches⟩ s) :
    s.items.toList.filterMap Item.branch? <+: branches.branches.toList := by
  rw [show branches.branches.toList = s.branches from h.branches]
  exact List.prefix_refl _

/-- Symbols have the same addresses. -/
theorem Stores.address? (h : Stores ⟨o, branches⟩ s) :
    o.address? (o.offsets branches) = s.address? s.offsets := by
  funext name
  have hsymbol : o.symbols[name]? = s.symbols[name]?.map (placeAfter s.items.toList) :=
    h.symbols name
  rw [Outline.address?, Section.address?, hsymbol]
  cases hi : s.symbols[name]? with
  | none => rfl
  | some i =>
    refine (address?_position h.fragments h.isPrefix i).trans ?_
    exact (Section.getElem?_offsets_of_le (h.bounded name i hi)).symm

/-- **The place of an item has the address of the item**, also if it was given earlier. -/
theorem Stores.address?_positionOf? (h : Stores ⟨o, branches⟩ s) {earlier : Section}
    (hearlier : earlier.items.toList.map Item.appended <+: s.items.toList.map Item.appended)
    {i : Nat} {p : Position} (hp : earlier.positionOf? i = some p) :
    p.address? (o.offsets branches) = s.offsets[i]? := by
  obtain ⟨item, hitem, rfl⟩ := Option.map_eq_some_iff.1 (positionOf?_of_isPrefix hearlier hp)
  obtain ⟨hlt, -⟩ := Array.getElem?_eq_some_iff.1 hitem
  rw [address?_place h.fragments h.isPrefix (by rwa [Array.getElem?_toList]),
    Section.getElem?_offsets_of_le (Nat.le_of_lt hlt)]

/-- The end has the address that follows all items. -/
theorem Stores.address?_end (h : Stores ⟨o, branches⟩ s) :
    s.position.address? (o.offsets branches) = s.offsets[s.items.size]? := by
  rw [position_eq_placeAfter, placeAfter, address?_position h.fragments h.isPrefix,
    Section.getElem?_offsets_of_le (Nat.le_refl _)]

/-- The number of a branch is that of the branches before it. -/
theorem Stores.get?_branchesBefore (h : Stores ⟨o, branches⟩ s) {i : Nat} {b : Branch}
    {relax : Bool} (hi : s.items[i]? = some (.branch b relax)) :
    branches.get? (s.branchesBefore i) = some b := by
  have hnext : s.items.toList.take (i + 1) = s.items.toList.take i ++ [.branch b relax] := by
    rw [List.take_add_one, Array.getElem?_toList, hi]
    rfl
  exact get?_of_concat (hnext ▸ isPrefix_of_take h.isPrefix (i + 1)) b rfl

theorem merges_tighten (address? : String → Option Nat) : Merges (Fragment.tighten address?) where
  merge _ _ _ _ _ _ := rfl

/-- The branch of one item, in a fragment of its own, is tightened as the item is. -/
theorem tighten_fragment (s : Section) (offsets : Array Nat) (start : Nat) (item : Item)
    (front back : List Branch) (changed : Bool) :
    Fragment.tighten (s.address? offsets) changed (item.fragment front.length, start)
        ⟨(front ++ (item.branch?.toList ++ back)).toArray⟩ =
      .ok (changed || (s.tightenItem offsets start item).size != item.size)
        ⟨(front ++ ((s.tightenItem offsets start item).branch?.toList ++ back)).toArray⟩ := by
  cases item with
  | data bytes fixup =>
    simp [Fragment.tighten, Item.fragment, Section.tightenItem, pure, EStateM.pure]
  | branch b relax =>
    simp only [Fragment.tighten, Item.fragment, Item.branch?, Option.toList_some,
      List.singleton_append, BranchStoreM.bind_run, BranchStoreM.find_run,
      BranchStoreM.tighten_run, BranchStore.get?_between, BranchStore.replace_between]
    rfl

/-- A pass over items, each with a fragment of its own. -/
theorem foldlM_tighten (s : Section) (offsets : Array Nat) (front : List Branch) (start : Nat)
    (items : List Item) (changed : Bool) :
    ∃ changed', (separate front.length start items).foldlM
        (Fragment.tighten (s.address? offsets)) changed
        ⟨(front ++ items.filterMap Item.branch?).toArray⟩ =
          .ok changed'
            ⟨(front ++ (s.tightenFrom offsets start items).filterMap Item.branch?).toArray⟩ ∧
      (changed' = true ↔ changed = true ∨
        (s.tightenFrom offsets start items).map Item.size ≠ items.map Item.size) := by
  induction items generalizing front start changed with
  | nil => exact ⟨changed, rfl, by simp [Section.tightenFrom]⟩
  | cons item items ih =>
    have hlength := Item.length_branch? (s.appended_tightenItem offsets start item)
    obtain ⟨changed', hrun, hchanged⟩ :=
      ih (front ++ (s.tightenItem offsets start item).branch?.toList) (start + item.size)
        (changed || (s.tightenItem offsets start item).size != item.size)
    rw [List.length_append, hlength, List.append_assoc, List.append_assoc] at hrun
    refine ⟨changed', ?_, hchanged.trans ?_⟩
    · rw [separate, List.foldlM_cons, BranchStoreM.bind_run, Item.filterMap_branch?_cons,
        tighten_fragment, Section.tightenFrom, Item.filterMap_branch?_cons]
      exact hrun
    · rw [Section.tightenFrom, List.map_cons, List.map_cons, ne_eq, ne_eq, List.cons_eq_cons,
        not_and_or, Bool.or_eq_true, bne_iff_ne, or_assoc]

/-- One pass tightens the section that is stored, and tells whether a size changed. -/
theorem Stores.tighten (h : Stores ⟨o, branches⟩ s) :
    ∃ changed branches', (o.located (o.offsets branches)).foldlM
        (Fragment.tighten (o.address? (o.offsets branches))) false branches =
          .ok changed branches' ∧
      Stores ⟨o, branches'⟩ s.tighten ∧ (changed = true ↔ s.tighten.sizes ≠ s.sizes) := by
  obtain ⟨changed, hrun, hchanged⟩ := foldlM_tighten s s.offsets [] 0 s.items.toList false
  have hbranches : branches = ⟨([] ++ s.items.toList.filterMap Item.branch?).toArray⟩ :=
    congrArg BranchStore.mk (Array.toList_inj.1 h.branches)
  rw [← hbranches, ← Section.items_tighten] at hrun
  refine ⟨changed, ⟨s.tighten.branches.toArray⟩, ?_,
    h.of_appended rfl s.map_appended_tighten rfl, ?_⟩
  · rw [foldlM_located (merges_tighten _) h.fragments h.isPrefix, h.address?]
    exact hrun
  · simpa [Section.sizes, Section.items_tighten] using hchanged

/-- Addresses are seen from the lengths of the branches. -/
theorem offsets_congr {branches' : BranchStore}
    (h : branches'.branches.toList.map Branch.length = branches.branches.toList.map Branch.length)
    (o : Outline) : o.offsets branches' = o.offsets branches := by
  have hestimate : branches'.estimate = branches.estimate := by
    funext number
    have hnumber := congrArg (·[number]?) h
    simp only [List.getElem?_map, Array.getElem?_toList] at hnumber
    unfold BranchStore.estimate BranchStore.get?
    cases hb : branches.branches[number]? <;> cases hb' : branches'.branches[number]? <;>
      simp_all
  have hsize : Fragment.size branches' = Fragment.size branches := by
    funext fragment
    cases fragment with
    | fixed bytes fixups => rfl
    | relaxed number relax => exact congrFun hestimate number
  unfold Outline.offsets
  rw [hsize]

theorem map_length_branches {items items' : List Item}
    (happended : items'.map Item.appended = items.map Item.appended)
    (hsizes : items'.map Item.size = items.map Item.size) :
    (items'.filterMap Item.branch?).map Branch.length =
      (items.filterMap Item.branch?).map Branch.length := by
  induction items generalizing items' with
  | nil =>
    obtain rfl : items' = [] := by simpa using happended
    rfl
  | cons item items ih =>
    obtain ⟨item', rest, rfl, hitem, hrest⟩ := List.map_eq_cons_iff.1 happended
    obtain ⟨hsize, hsizes⟩ := List.cons_eq_cons.1 hsizes
    have ih := ih hrest hsizes
    cases item <;> cases item' <;> first
      | exact ih
      | exact congrArg₂ List.cons hsize ih
      | cases hitem

/-- **Passes on the stored form are passes on the section.** If no length changes any more, the
addresses are those of the final lengths. -/
theorem Stores.relax (h : Stores ⟨o, branches⟩ s) (n : Nat) :
    ∃ branches', Stores ⟨o, branches'⟩ (s.relax n).1 ∧ o.relax n branches =
      .ok (if (s.relax n).2 then some (o.offsets branches') else none) branches' := by
  induction n generalizing s branches with
  | zero => exact ⟨branches, h, rfl⟩
  | succ n ih =>
    obtain ⟨changed, branches', hrun, hstores, hchanged⟩ := h.tighten
    have hstep : o.relax (n + 1) branches =
        if changed then o.relax n branches' else .ok (some (o.offsets branches)) branches' := by
      simp only [Outline.relax, BranchStoreM.bind_run, BranchStoreM.get_run, hrun]
      cases changed <;> rfl
    unfold Section.relax
    cases changed with
    | false =>
      have hsizes : s.tighten.sizes = s.sizes := by simpa using hchanged
      have hoffsets : o.offsets branches' = o.offsets branches := by
        refine offsets_congr ?_ o
        rw [show branches'.branches.toList = _ from hstores.branches,
          show branches.branches.toList = _ from h.branches]
        exact map_length_branches s.map_appended_tighten hsizes
      refine ⟨branches', ?_, ?_⟩
      · simpa [hsizes] using hstores
      · simp [hstep, hsizes, hoffsets]
    | true =>
      have hsizes : ¬ s.tighten.sizes = s.sizes := hchanged.1 rfl
      obtain ⟨final, hfinal, hrest⟩ := ih hstores
      refine ⟨final, ?_, ?_⟩
      · simpa [hsizes] using hfinal
      · simp [hstep, hsizes, hrest]

end Stream

/-! ### Emission -/

/-- Emission leaves the items as they were appended, also when it fails. -/
theorem Section.appended_emitItems (s : Section) (offsets : Array Nat) (start : Nat)
    (items : List Item) :
    (s.emitItems offsets start items).1.map Item.appended = items.map Item.appended := by
  induction items generalizing start with
  | nil => rfl
  | cons item items ih =>
    unfold emitItems
    cases hemit : s.emitItem offsets start item with
    | error d => rfl
    | ok pair => exact congrArg₂ List.cons (emitItem_eq_ok hemit).1 (ih _)

/-- The output with the pieces of items appended. -/
def Output.add (out : Output) (pieces : List Piece) : Output :=
  ⟨out.bytes ++ (pieces.flatMap Piece.bytes).toArray,
    out.fixups ++ (pieces.filterMap Piece.fixup).toArray⟩

theorem Output.add_cons (out : Output) (piece : Piece) (pieces : List Piece) :
    out.add (piece :: pieces) = (out.add [piece]).add pieces := by
  cases h : piece.fixup <;> simp [add, h]

namespace Stream

variable {s s' : Section} {o : Outline} {branches : BranchStore}

theorem merges_emit (address? : String → Option Nat) : Merges (Fragment.emit address?) where
  merge out bytes fixups data fixup start := by
    cases fixup <;> simp [Fragment.extend, Fragment.emit, Nat.add_assoc]

/-- One item, in a fragment of its own, is emitted as in the section. -/
theorem emit_fragment (s : Section) (offsets : Array Nat) (start : Nat) (item : Item)
    (front back : List Branch) (out : Output) :
    Fragment.emit (s.address? offsets) out (item.fragment front.length, start)
        ⟨(front ++ (item.branch?.toList ++ back)).toArray⟩ =
      match s.emitItem offsets start item with
      | .error d => .error d ⟨(front ++ (item.branch?.toList ++ back)).toArray⟩
      | .ok (item', piece) =>
        .ok (out.add [piece]) ⟨(front ++ (item'.branch?.toList ++ back)).toArray⟩ := by
  cases item with
  | data bytes fixup =>
    cases fixup <;>
      simp [Fragment.emit, Item.fragment, Section.emitItem, Output.add, pure, EStateM.pure]
  | branch b relax =>
    have hsection : s.emitItem offsets start (.branch b relax) =
        (b.emit (Layout.distance? (s.address? offsets) b.target b.offset start)).map fun out =>
          (.branch out.1 relax, ⟨out.2.bytes, some (start + out.2.patchOffset,
            ⟨out.2.kind, .symbol out.1.target out.1.offset, out.2.kind.mayRelax relax⟩)⟩) := rfl
    rw [hsection]
    simp only [Fragment.emit, Item.fragment, Item.branch?, Option.toList_some,
      List.singleton_append, BranchStoreM.bind_run, BranchStoreM.find_run, BranchStoreM.emit_run,
      BranchStore.get?_between, BranchStore.replace_between]
    cases hemit : b.emit (Layout.distance? (s.address? offsets) b.target b.offset start) with
    | error d => rfl
    | ok pair =>
      obtain ⟨-, -, -, hafter⟩ := Branch.emit_eq_ok_iff.1 hemit
      simp [Except.map, hafter, Output.add, pure, EStateM.pure]

/-- Emission of items, each with a fragment of its own. -/
theorem foldlM_emit (s : Section) (offsets : Array Nat) (front : List Branch) (start : Nat)
    (items : List Item) (out : Output) :
    (separate front.length start items).foldlM (Fragment.emit (s.address? offsets)) out
        ⟨(front ++ items.filterMap Item.branch?).toArray⟩ =
      match s.emitItems offsets start items with
      | (items', .error d) => .error d ⟨(front ++ items'.filterMap Item.branch?).toArray⟩
      | (items', .ok pieces) =>
        .ok (out.add pieces) ⟨(front ++ items'.filterMap Item.branch?).toArray⟩ := by
  induction items generalizing front start out with
  | nil => simp [separate, Section.emitItems, Output.add, pure, EStateM.pure]
  | cons item items ih =>
    rw [separate, List.foldlM_cons, BranchStoreM.bind_run, Item.filterMap_branch?_cons,
      emit_fragment, Section.emitItems]
    cases hemit : s.emitItem offsets start item with
    | error d => simp only [Item.filterMap_branch?_cons]
    | ok pair =>
      obtain ⟨item', piece⟩ := pair
      have ih := ih (front ++ item'.branch?.toList) (start + item.size) (out.add [piece])
      rw [List.length_append, Item.length_branch? (Section.emitItem_eq_ok hemit).1,
        List.append_assoc] at ih
      refine ih.trans ?_
      cases hrest : s.emitItems offsets (start + item.size) items with
      | mk items' outcome =>
        cases outcome with
        | error d => simp only [Except.map, Item.filterMap_branch?_cons, List.append_assoc]
        | ok pieces =>
          simp only [Except.map, Item.filterMap_branch?_cons, List.append_assoc,
            out.add_cons piece pieces]

/-- Symbols stand in the same order. -/
theorem Stores.toList_symbols (h : Stores ⟨o, branches⟩ s) :
    o.symbols.toList =
      s.symbols.toList.map fun (name, i) => (name, placeAfter s.items.toList i) := by
  have hequiv : o.symbols.Equiv (s.symbols.map fun _ i => placeAfter s.items.toList i) := by
    refine .of_forall_constGet?_eq fun name => ?_
    rw [Std.TreeMap.getElem?_map]
    exact h.symbols name
  rw [hequiv.toList_eq, Std.TreeMap.toList_map]

/-- The symbols of a layout have the same addresses. -/
theorem Stores.symbols_layout (h : Stores ⟨o, branches⟩ s) :
    (o.symbols.toList.filterMap fun (name, p) => (p.address? (o.offsets branches)).map (name, ·)) =
      s.symbols.toList.filterMap fun (name, i) => s.offsets[i]?.map (name, ·) := by
  rw [h.toList_symbols, List.filterMap_map]
  refine List.filterMap_congr fun p hp => ?_
  obtain ⟨name, i⟩ := p
  have hi := h.bounded name i (Std.TreeMap.mem_toList_iff_getElem?_eq_some.1 hp)
  simp only [Function.comp_apply, placeAfter, address?_position h.fragments h.isPrefix,
    Section.getElem?_offsets_of_le hi]

/-- **Emission of the stored form is emission of the section.** -/
theorem Stores.emit (h : Stores ⟨o, branches⟩ s) :
    o.emit (o.offsets branches) branches =
      match s.emitItems s.offsets 0 s.items.toList with
      | (items, .error d) => .error d ⟨(items.filterMap Item.branch?).toArray⟩
      | (items, .ok pieces) =>
        match s.assemblePieces s.offsets pieces with
        | .error d => .error d ⟨(items.filterMap Item.branch?).toArray⟩
        | .ok l => .ok l ⟨(items.filterMap Item.branch?).toArray⟩ := by
  have hbranches : s.items.toList.filterMap Item.branch? = branches.branches.toList :=
    h.branches.symm
  have hfold := foldlM_emit s s.offsets [] 0 s.items.toList ⟨#[], #[]⟩
  simp only [List.length_nil, List.nil_append, hbranches] at hfold
  simp only [Outline.emit, BranchStoreM.bind_run, h.address?, h.symbols_layout,
    foldlM_located (merges_emit _) h.fragments h.isPrefix, Array.toArray_toList] at hfold ⊢
  rw [hfold]
  cases s.emitItems s.offsets 0 s.items.toList with
  | mk items outcome =>
    cases outcome with
    | error d => rfl
    | ok pieces =>
      simp only [Section.assemblePieces, Output.add, Array.empty_append, List.toList_toArray]
      cases Layout.assemble _ _ _ _ <;> rfl

/-- **Layout of the stored form is layout of the section.** -/
theorem Stores.layout {st : Stream} (h : Stores st s) :
    st.layout.2 = s.layout.2 ∧ Stores st.layout.1 s.layout.1 := by
  obtain ⟨branches, hmid, hrelax⟩ := Stores.relax h Section.maxPasses
  cases hs : s.relax Section.maxPasses with
  | mk mid settled =>
    rw [hs] at hmid hrelax
    cases settled with
    | false =>
      have hlayout : st.toOutline.layout st.branches = .ok none branches := by
        rw [Outline.layout, BranchStoreM.bind_run, hrelax]
        rfl
      rw [Stream.layout, Section.layout, hlayout, hs]
      exact ⟨rfl, hmid⟩
    | true =>
      have hlayout : st.toOutline.layout st.branches =
          match st.toOutline.emit (st.offsets branches) branches with
          | .ok l branches' => .ok (some l) branches'
          | .error d branches' => .error d branches' := by
        rw [Outline.layout, BranchStoreM.bind_run, hrelax]
        simp only [if_true, BranchStoreM.bind_run]
        cases st.toOutline.emit (st.offsets branches) branches <;> rfl
      rw [hmid.emit] at hlayout
      have happended := mid.appended_emitItems mid.offsets 0 mid.items.toList
      rw [Stream.layout, Section.layout, hlayout, hs]
      dsimp only
      cases hemit : mid.emitItems mid.offsets 0 mid.items.toList with
      | mk items outcome =>
        rw [hemit] at happended
        have hstores : Stores ⟨st.toOutline, ⟨(items.filterMap Item.branch?).toArray⟩⟩
            { mid with items := items.toArray } := hmid.of_appended rfl happended rfl
        cases outcome with
        | error d => exact ⟨rfl, hstores⟩
        | ok pieces =>
          dsimp only
          cases mid.assemblePieces mid.offsets pieces with
          | error d => exact ⟨rfl, hstores⟩
          | ok l => exact ⟨rfl, hstores⟩

end Stream

end RiscvAssembler

import Mathlib.Data.List.Induction
import RiscvAssembler.Proofs.Section.Placement
import RiscvAssembler.Section.Stream

/-!
Fragments and places. Every item that is appended goes to the end of the last fragment or into a new
one (`fragments_append`), so a place keeps its meaning from then on: its address is that of the
items appended before it, whatever follows and whichever lengths the branches have
(`address?_position`). A fold over the fragments and their addresses does not see that data is
merged, if it takes merged data as it takes the parts (`Merges`): it is a fold over fragments of one
item each (`foldlM_located`).
-/

namespace RiscvAssembler

/-- The fragment of an item by itself; `number` is that of its branch. -/
def Item.fragment (number : Nat) : Item → Fragment
  | .data bytes fixup => .fixed bytes.toArray (fixup.map (0, ·)).toArray
  | .branch _ relax => .relaxed number relax

namespace Stream

variable {st : Stream} {front : Array Fragment} {bytes : Array UInt8}
  {fixups : Array (Nat × Fixup)}

/-! ### The end of the fragments -/

theorem position_of_fixed (h : st.fragments = front.push (.fixed bytes fixups)) :
    st.position = ⟨front.size, bytes.size⟩ := by
  simp [position, h]

theorem position_of_relaxed {number : Nat} {relax : Bool}
    (h : st.fragments = front.push (.relaxed number relax)) :
    st.position = ⟨front.size + 1, 0⟩ := by
  simp [position, h]

/-- A section ends in fixed bytes, or at a border of fragments. -/
theorem fragments_cases (st : Stream) :
    (∃ (front : Array Fragment) (bytes : Array UInt8) (fixups : Array (Nat × Fixup)),
      st.fragments = front.push (.fixed bytes fixups)) ∨
    st.position = ⟨st.fragments.size, 0⟩ := by
  by_cases hempty : st.fragments = #[]
  · exact .inr (by simp [position, hempty])
  · obtain ⟨front, last, hlast⟩ := Array.exists_push_of_ne_empty hempty
    cases last with
    | fixed bytes fixups => exact .inl ⟨front, bytes, fixups, hlast⟩
    | relaxed number relax =>
      rw [position_of_relaxed hlast, hlast, Array.size_push]
      exact .inr rfl

theorem modify_push (front : Array Fragment) (last : Fragment) (f : Fragment → Fragment) :
    (front.push last).modify front.size f = front.push (f last) := by
  refine Array.ext_getElem? fun i => ?_
  rw [Array.getElem?_modify, Array.getElem?_push, Array.getElem?_push]
  grind

/-- Data goes to the end of fixed bytes, with its relocation after them. -/
theorem fragments_appendData_of_fixed (h : st.fragments = front.push (.fixed bytes fixups))
    (data : List UInt8) (fixup : Option Fixup) :
    (st.appendData data fixup).2.fragments =
      front.push ((Fragment.fixed bytes fixups).extend bytes.size data fixup) := by
  have hinside : front.size ≠ front.size + 1 := (Nat.succ_ne_self _).symm
  simp only [appendData, position_of_fixed h, h, Array.size_push, if_neg hinside,
    Nat.add_sub_cancel, modify_push]

/-- At a border of fragments, data goes into a new one. -/
theorem fragments_appendData_of_border (h : st.position = ⟨st.fragments.size, 0⟩)
    (data : List UInt8) (fixup : Option Fixup) (number : Nat) :
    (st.appendData data fixup).2.fragments =
      st.fragments.push ((Item.data data fixup).fragment number) := by
  simp [appendData, h, modify_push, Fragment.extend, Item.fragment]

/-- **Where an item goes**: to the end of the last fragment, or into one of its own. -/
theorem fragments_append (st : Stream) (item : Item) :
    (∃ (front : Array Fragment) (bytes : Array UInt8) (fixups : Array (Nat × Fixup))
        (data : List UInt8) (fixup : Option Fixup), item = .data data fixup ∧
      st.fragments = front.push (.fixed bytes fixups) ∧
      (st.append item).2.fragments =
        front.push ((Fragment.fixed bytes fixups).extend bytes.size data fixup)) ∨
    (st.append item).2.fragments =
      st.fragments.push (item.fragment st.branches.branches.size) := by
  cases item with
  | data data fixup =>
    rcases st.fragments_cases with ⟨front, bytes, fixups, hlast⟩ | hborder
    · exact .inl ⟨front, bytes, fixups, data, fixup, rfl, hlast,
        fragments_appendData_of_fixed hlast data fixup⟩
    · exact .inr (fragments_appendData_of_border hborder data fixup _)
  | branch b relax => exact .inr rfl

theorem branches_append (st : Stream) (item : Item) :
    (st.append item).2.branches.branches.toList =
      st.branches.branches.toList ++ item.branch?.toList := by
  cases item with
  | data bytes fixup => simp [append, appendData, Item.branch?]
  | branch b relax => simp [append, addBranch, BranchStore.push, Item.branch?]

theorem ofItems_concat (items : List Item) (item : Item) :
    ofItems (items ++ [item]) = ((ofItems items).append item).2 := by
  rw [ofItems, List.foldl_append]
  rfl

theorem branches_ofItems (items : List Item) :
    (ofItems items).branches.branches.toList = items.filterMap Item.branch? := by
  induction items using List.reverseRecOn with
  | nil => rfl
  | append_singleton items item ih =>
    rw [ofItems_concat, branches_append, ih, List.filterMap_append]
    cases h : item.branch? <;> simp [h]

/-! ### Places -/

theorem position_fragment_le (st : Stream) : st.position.fragment ≤ st.fragments.size := by
  rcases st.fragments_cases with ⟨front, bytes, fixups, hlast⟩ | hborder
  · simp [position_of_fixed hlast, hlast]
  · simp [hborder]

theorem le_position_of_push {item : Item} {number : Nat}
    (h : st.fragments = front.push (item.fragment number)) : front.size ≤ st.position.fragment := by
  cases item with
  | data data fixup => simp [position_of_fixed h]
  | branch b relax => simp [position_of_relaxed h]

/-- An item that is appended leaves the fragments before the end as they are. -/
theorem take_append {n : Nat} (hn : n ≤ st.position.fragment) (item : Item) :
    (st.append item).2.fragments.toList.take n = st.fragments.toList.take n ∧
      n ≤ (st.append item).2.position.fragment := by
  rcases st.fragments_append item with
    ⟨front, bytes, fixups, data, fixup, -, hlast, hnext⟩ | hnext
  · rw [position_of_fixed hlast] at hn
    rw [position_of_fixed hnext, hnext, hlast]
    refine ⟨?_, hn⟩
    rw [Array.toList_push, Array.toList_push, List.take_append_of_le_length (by simpa using hn),
      List.take_append_of_le_length (by simpa using hn)]
  · have hsize := Nat.le_trans hn st.position_fragment_le
    refine ⟨?_, Nat.le_trans hsize (le_position_of_push hnext)⟩
    rw [hnext, Array.toList_push, List.take_append_of_le_length (by simpa using hsize)]

/-- So do all items that follow. -/
theorem take_ofItems_append {front : List Item} {n : Nat}
    (hn : n ≤ (ofItems front).position.fragment) (items : List Item) :
    (ofItems (front ++ items)).fragments.toList.take n =
        (ofItems front).fragments.toList.take n ∧
      n ≤ (ofItems (front ++ items)).position.fragment := by
  induction items using List.reverseRecOn with
  | nil => rw [List.append_nil]; exact ⟨rfl, hn⟩
  | append_singleton items item ih =>
    rw [← List.append_assoc, ofItems_concat]
    obtain ⟨htake, hle⟩ := take_append ih.2 item
    exact ⟨htake.trans ih.1, hle⟩

/-! ### Addresses -/

/-- The size of fragments in a row. -/
def extent (branches : BranchStore) (fragments : List Fragment) : Nat :=
  (fragments.map (Fragment.size branches)).sum

theorem extent_append (branches : BranchStore) (fragments fragments' : List Fragment) :
    extent branches (fragments ++ fragments') =
      extent branches fragments + extent branches fragments' := by
  simp [extent]

@[simp] theorem extent_singleton (branches : BranchStore) (fragment : Fragment) :
    extent branches [fragment] = fragment.size branches := by
  simp [extent]

/-- The end stands after all fragments. -/
theorem extent_position (st : Stream) (branches : BranchStore) :
    extent branches (st.fragments.toList.take st.position.fragment) + st.position.offset =
      extent branches st.fragments.toList := by
  rcases st.fragments_cases with ⟨front, bytes, fixups, hlast⟩ | hborder
  · rw [position_of_fixed hlast, hlast, Array.toList_push, List.take_left' (by simp), extent_append,
      extent_singleton]
    rfl
  · rw [hborder, List.take_of_length_le (by simp), Nat.add_zero]

theorem foldl_extent (branches : BranchStore) (fragments : List Fragment) (start : Nat) :
    fragments.foldl (fun start fragment => start + fragment.size branches) start =
      start + extent branches fragments := by
  induction fragments generalizing start with
  | nil => rfl
  | cons fragment fragments ih =>
    rw [List.foldl_cons, ih, Nat.add_assoc]
    rfl

theorem getElem?_offsets {o : Outline} {n : Nat} (hn : n ≤ o.fragments.size)
    (branches : BranchStore) :
    (o.offsets branches)[n]? = some (extent branches (o.fragments.toList.take n)) := by
  rw [Outline.offsets, List.getElem?_toArray, List.getElem?_scanl, if_pos (by simpa using hn),
    foldl_extent, Nat.zero_add]

section

variable {branches : BranchStore} {items : List Item} {o : Outline}

theorem size_fragment {item : Item} {number : Nat}
    (h : ∀ b ∈ item.branch?, branches.get? number = some b) :
    (item.fragment number).size branches = item.size := by
  cases item with
  | data bytes fixup => rfl
  | branch b relax => simp [Item.fragment, Fragment.size, BranchStore.estimate, h b rfl, Item.size]

/-- A branch at the end of items has the next number. -/
theorem get?_of_concat {item : Item}
    (h : (items ++ [item]).filterMap Item.branch? <+: branches.branches.toList) :
    ∀ b ∈ item.branch?, branches.get? (ofItems items).branches.branches.size = some b := by
  intro b hb
  obtain ⟨rest, hrest⟩ := h
  have hsize : (ofItems items).branches.branches.size = (items.filterMap Item.branch?).length := by
    rw [← branches_ofItems, Array.length_toList]
  rw [BranchStore.get?, ← Array.getElem?_toList, ← hrest, hsize, List.filterMap_append]
  simp [Option.mem_def.1 hb]

theorem isPrefix_of_append {items' : List Item}
    (h : (items ++ items').filterMap Item.branch? <+: branches.branches.toList) :
    items.filterMap Item.branch? <+: branches.branches.toList := by
  rw [List.filterMap_append] at h
  exact (List.prefix_append _ _).trans h

theorem isPrefix_of_take (h : items.filterMap Item.branch? <+: branches.branches.toList) (i : Nat) :
    (items.take i).filterMap Item.branch? <+: branches.branches.toList := by
  rw [← List.take_append_drop i items] at h
  exact isPrefix_of_append h

/-- Fragments have the size of the items in them. -/
theorem extent_ofItems (h : items.filterMap Item.branch? <+: branches.branches.toList) :
    extent branches (ofItems items).fragments.toList = (items.map Item.size).sum := by
  induction items using List.reverseRecOn with
  | nil => rfl
  | append_singleton items item ih =>
    have hitem := size_fragment (get?_of_concat h)
    have ih := ih (isPrefix_of_append h)
    rw [ofItems_concat, List.map_append, List.sum_append, ← ih]
    rcases (ofItems items).fragments_append item with
      ⟨front, bytes, fixups, data, fixup, rfl, hlast, hnext⟩ | hnext
    · rw [hnext, hlast, Array.toList_push, Array.toList_push, extent_append, extent_append]
      simp [Fragment.extend, Fragment.size, Item.size, Nat.add_assoc]
    · rw [hnext, Array.toList_push, extent_append, extent_singleton, hitem]
      simp

/-- The address of a place that later items leave alone. -/
theorem address?_of_le {front : List Item} {p : Position}
    (hp : p.fragment ≤ (ofItems front).position.fragment)
    (ho : o.fragments = (ofItems (front ++ items)).fragments) (branches : BranchStore) :
    p.address? (o.offsets branches) =
      some (extent branches ((ofItems front).fragments.toList.take p.fragment) + p.offset) := by
  obtain ⟨htake, hle⟩ := take_ofItems_append hp items
  have hsize : p.fragment ≤ o.fragments.size := by
    rw [ho]
    exact Nat.le_trans hle (position_fragment_le _)
  rw [Position.address?, getElem?_offsets hsize, ho, htake]
  rfl

/-- **The place after some items has their address**, whatever was appended later. -/
theorem address?_position (ho : o.fragments = (ofItems items).fragments)
    (h : items.filterMap Item.branch? <+: branches.branches.toList) (i : Nat) :
    (ofItems (items.take i)).position.address? (o.offsets branches) =
      some (startOf items i) := by
  rw [address?_of_le (Nat.le_refl _) (by rw [List.take_append_drop, ho]), extent_position,
    extent_ofItems (isPrefix_of_take h i)]
  rfl

/-- **The place of an item has its address.** -/
theorem address?_place (ho : o.fragments = (ofItems items).fragments)
    (h : items.filterMap Item.branch? <+: branches.branches.toList) {i : Nat} {item : Item}
    (hi : items[i]? = some item) :
    ((ofItems (items.take i)).append item).1.address? (o.offsets branches) =
      some (startOf items i) := by
  cases item with
  | data bytes fixup => exact address?_position ho h i
  | branch b relax =>
    -- The branch has a fragment of its own, so the fragments before it are complete.
    have hnext : items.take (i + 1) = items.take i ++ [.branch b relax] := by
      rw [List.take_add_one, hi]
      rfl
    have hlast : (ofItems (items.take (i + 1))).fragments =
        (ofItems (items.take i)).fragments.push
          (.relaxed (ofItems (items.take i)).branches.branches.size relax) := by
      rw [hnext, ofItems_concat]
      rfl
    have hsplit : o.fragments =
        (ofItems (items.take (i + 1) ++ items.drop (i + 1))).fragments := by
      rw [List.take_append_drop, ho]
    rw [append, addBranch, address?_of_le ?_ hsplit, hlast, Array.toList_push,
      List.take_left' (by simp), Nat.add_zero, extent_ofItems (isPrefix_of_take h i)]
    · rfl
    · simp [position_of_relaxed hlast]

end

/-! ### Merged data -/

/-- The fragments of items one by one, from a branch number and an address on. -/
def separate (number start : Nat) : List Item → List (Fragment × Nat)
  | [] => []
  | item :: items =>
    (item.fragment number, start) ::
      separate (number + item.branch?.toList.length) (start + item.size) items

theorem separate_append (number start : Nat) (items items' : List Item) :
    separate number start (items ++ items') =
      separate number start items ++ separate (number + (items.filterMap Item.branch?).length)
        (start + (items.map Item.size).sum) items' := by
  induction items generalizing number start with
  | nil => rfl
  | cons item items ih =>
    rw [List.cons_append, separate, separate, ih, List.cons_append, List.map_cons, List.sum_cons]
    cases h : item.branch? <;> simp [h, Nat.add_comm, Nat.add_left_comm]

/-- Fragments from an address on, each with its own. -/
def locate (branches : BranchStore) (start : Nat) (fragments : List Fragment) :
    List (Fragment × Nat) :=
  fragments.zip (fragments.scanl (fun start fragment => start + fragment.size branches) start)

theorem locate_append (branches : BranchStore) (start : Nat)
    (fragments fragments' : List Fragment) :
    locate branches start (fragments ++ fragments') =
      locate branches start fragments ++
        locate branches (start + extent branches fragments) fragments' := by
  induction fragments generalizing start with
  | nil => simp [locate, extent]
  | cons fragment fragments ih =>
    have hstep := ih (start + fragment.size branches)
    simp only [locate] at hstep
    simp [locate, extent, hstep, Nat.add_assoc]

theorem located_offsets (o : Outline) (branches : BranchStore) :
    o.located (o.offsets branches) = locate branches 0 o.fragments.toList := by
  simp [Outline.located, Outline.offsets, locate]

/-- A step over fragments that takes merged data as it takes the parts. -/
structure Merges {α : Type} (step : α → Fragment × Nat → BranchStoreM α) : Prop where
  merge : ∀ (a : α) (bytes : Array UInt8) (fixups : Array (Nat × Fixup)) (data : List UInt8)
    (fixup : Option Fixup) (start : Nat),
    step a ((Fragment.fixed bytes fixups).extend bytes.size data fixup, start) = do
      step (← step a (.fixed bytes fixups, start))
        (.fixed data.toArray (fixup.map (0, ·)).toArray, start + bytes.size)

/-- **Merging data makes no difference** to steps over the fragments and their addresses. -/
theorem foldlM_located {α : Type} {step : α → Fragment × Nat → BranchStoreM α} (hstep : Merges step)
    {branches : BranchStore} {items : List Item} {o : Outline}
    (ho : o.fragments = (ofItems items).fragments)
    (h : items.filterMap Item.branch? <+: branches.branches.toList) (a : α) :
    (o.located (o.offsets branches)).foldlM step a = (separate 0 0 items).foldlM step a := by
  rw [located_offsets, ho]
  clear ho
  induction items using List.reverseRecOn with
  | nil => rfl
  | append_singleton items item ih =>
    have hfront := isPrefix_of_append h
    have ih := ih hfront
    have hnumber : (ofItems items).branches.branches.size =
        0 + (items.filterMap Item.branch?).length := by
      rw [← branches_ofItems, Array.length_toList, Nat.zero_add]
    have hextent := extent_ofItems hfront
    rw [separate_append, List.foldlM_append, ← ih, ofItems_concat, ← hnumber, ← hextent]
    simp only [separate, List.foldlM_cons, List.foldlM_nil, bind_pure]
    rcases (ofItems items).fragments_append item with
      ⟨front, bytes, fixups, data, fixup, rfl, hlast, hnext⟩ | hnext
    · rw [hnext, hlast, Array.toList_push, Array.toList_push, locate_append, locate_append,
        List.foldlM_append, List.foldlM_append, bind_assoc]
      simp [locate, hstep.merge, extent_append, Fragment.size, Item.fragment]
    · rw [hnext, Array.toList_push, locate_append, List.foldlM_append]
      simp [locate]

end Stream

end RiscvAssembler

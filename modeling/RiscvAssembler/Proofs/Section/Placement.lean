import Mathlib.Algebra.Order.Ring.Int
import RiscvAssembler.Proofs.Section.Growth

/-!
What layout does to the items of a section. Tightening and emission keep every item apart from the
length and the state of its branch (`map_appended_tighten`, `emitItems_eq_ok`), the address of an
item is the sum of the sizes before it (`getElem?_offsets`), and each item of a successful layout
gives one piece, at that address and of its size (`PlacedFrom`).
-/

namespace RiscvAssembler

/-! ### Addresses -/

/-- The address of item `i`, or of the end: the sizes of the items before it. -/
def startOf (items : List Item) (i : Nat) : Nat :=
  ((items.take i).map Item.size).sum

@[simp] theorem startOf_zero (items : List Item) : startOf items 0 = 0 := by
  simp [startOf]

@[simp] theorem startOf_cons_succ (item : Item) (items : List Item) (i : Nat) :
    startOf (item :: items) (i + 1) = item.size + startOf items i := by
  simp [startOf]

theorem startOf_congr {items items' : List Item} (h : items.map Item.size = items'.map Item.size)
    (i : Nat) : startOf items i = startOf items' i := by
  rw [startOf, startOf, List.map_take, List.map_take, h]

theorem foldl_size (items : List Item) (start : Nat) :
    items.foldl (fun start item => start + item.size) start =
      start + (items.map Item.size).sum := by
  induction items generalizing start with
  | nil => simp
  | cons item items ih =>
    rw [List.foldl_cons, ih, List.map_cons, List.sum_cons, Nat.add_assoc]

namespace Section

theorem getElem?_offsets (s : Section) (i : Nat) :
    s.offsets[i]? = if i ≤ s.items.size then some (startOf s.items.toList i) else none := by
  rw [offsets, List.getElem?_toArray, List.getElem?_scanl, foldl_size, Nat.zero_add]
  simp [startOf]

theorem getElem?_offsets_of_le {s : Section} {i : Nat} (h : i ≤ s.items.size) :
    s.offsets[i]? = some (startOf s.items.toList i) := by
  rw [getElem?_offsets, if_pos h]

/-- Addresses are seen from sizes. -/
theorem offsets_congr {s t : Section}
    (h : t.items.toList.map Item.size = s.items.toList.map Item.size) : t.offsets = s.offsets := by
  have hsize : t.items.size = s.items.size := by simpa using congrArg List.length h
  refine Array.ext_getElem? fun i => ?_
  rw [getElem?_offsets, getElem?_offsets, hsize, startOf_congr h]

@[simp] theorem size_offsets (s : Section) : s.offsets.size = s.items.size + 1 := by
  simp [offsets]

end Section

/-! ### One branch -/

theorem BranchKind.within_iff {reach d : Int64} (h : 0 < reach.toInt) :
    within reach d = true ↔ -reach.toInt ≤ d.toInt ∧ d.toInt < reach.toInt := by
  have hneg : (-reach).toInt = -reach.toInt := by
    have hlt := reach.toInt_lt
    rw [Int64.toInt_neg]
    exact Int.bmod_eq_of_le_mul_two (by omega) (by omega)
  rw [within, Bool.and_eq_true_iff, decide_eq_true_iff, decide_eq_true_iff, Int64.le_iff_toInt_le,
    Int64.lt_iff_toInt_lt, hneg]

/-- A compressed form within its reach takes two bytes, and nothing else does. -/
theorem BranchKind.lengthAt_le_two_iff (k : BranchKind) (d : Int64) :
    k.lengthAt (some d) ≤ 2 ↔ k.isShort = true ∧ within k.shortReach d = true := by
  rw [← Bool.and_eq_true_iff]
  simp only [lengthAt, farLength]
  by_cases hshort : (k.isShort && within k.shortReach d) = true
  · rw [if_pos hshort]
    exact iff_of_true (Nat.le_refl 2) hshort
  · rw [if_neg hshort]
    refine iff_of_false ?_ hshort
    repeat' split
    all_goals omega

/-- A conditional branch takes at most four bytes within its reach, compressed or not. -/
theorem BranchKind.lengthAt_le_four_iff {k : BranchKind} (hk : k.isJump = false) (d : Int64) :
    k.lengthAt (some d) ≤ 4 ↔ within conditionalReach d = true := by
  have hnear : within k.shortReach d = true → within conditionalReach d = true := by
    rw [shortReach, hk, conditionalReach, within_iff (by decide), within_iff (by decide)]
    have h₁ : (256 : Int64).toInt = 256 := by decide
    have h₂ : (4096 : Int64).toInt = 4096 := by decide
    intro hd
    simp only [Bool.false_eq_true, if_false] at hd
    omega
  simp only [lengthAt, farLength, hk, Bool.false_eq_true, if_false]
  by_cases hwide : within conditionalReach d = true
  · refine iff_of_true ?_ hwide
    rw [if_pos hwide]
    split <;> decide
  · refine iff_of_false ?_ hwide
    rw [if_neg fun h => hwide (hnear (Bool.and_eq_true_iff.1 h).2), if_neg hwide]
    split <;> decide

namespace Branch

/-- What emission of a branch needs and gives. -/
theorem emit_eq_ok_iff {b b' : Branch} {distance : Option Int64} {code : BranchCode} :
    b.emit distance = .ok (b', code) ↔
      b.state ≠ .unresolved ∧ b.kind.reaches b.length distance = true ∧ b.bytes = .ok code ∧
        b' = { b with state := .emitted } := by
  unfold emit
  by_cases h : b.state = .unresolved ∨ b.kind.reaches b.length distance = false
  · rw [if_pos h]
    refine ⟨fun h' => (by cases h'), ?_⟩
    rintro ⟨hs, hr, -, -⟩
    rcases h with h | h
    · exact absurd h hs
    · rw [h] at hr
      cases hr
  · rw [if_neg h]
    obtain ⟨hs, hr⟩ := not_or.1 h
    have hr : b.kind.reaches b.length distance = true := by simpa using hr
    cases hb : b.bytes with
    | error d => simp [bind, Except.bind]
    | ok c =>
      simp only [bind, Except.bind, Except.ok.injEq, Prod.mk.injEq]
      exact ⟨fun ⟨h₁, h₂⟩ => ⟨hs, hr, h₂, h₁.symm⟩, fun ⟨_, _, h₂, h₁⟩ => ⟨h₁.symm, h₂⟩⟩

/-- The lengths that reach anything. -/
theorem length_of_reaches {k : BranchKind} {n : Nat} {distance : Option Int64}
    (h : k.reaches n distance = true) : n = 2 ∨ n = 4 ∨ n = 6 ∨ n = 8 := by
  match n, h with
  | 2, _ => exact .inl rfl
  | 4, _ => exact .inr (.inl rfl)
  | 6, _ => exact .inr (.inr (.inl rfl))
  | 8, _ => exact .inr (.inr (.inr rfl))
  | 0, h | 1, h | 3, h | 5, h | 7, h | _ + 9, h => cases distance <;> cases h

/-- Two bytes are enough for a compressed form that reaches its target. -/
theorem short_of_reaches_two {k : BranchKind} {distance : Option Int64}
    (h : k.reaches 2 distance = true) :
    k.isShort = true ∧ ∃ d, distance = some d ∧ BranchKind.within k.shortReach d = true := by
  cases distance with
  | none => cases h
  | some d =>
    obtain ⟨hk, hd⟩ := (k.lengthAt_le_two_iff d).1 (of_decide_eq_true h)
    exact ⟨hk, d, rfl, hd⟩

/-- Four bytes are enough for a conditional branch that reaches its target. -/
theorem within_of_reaches_four {k : BranchKind} {d : Int64} (hk : k.isJump = false)
    (h : k.reaches 4 (some d) = true) :
    BranchKind.within BranchKind.conditionalReach d = true :=
  (BranchKind.lengthAt_le_four_iff hk d).1 (of_decide_eq_true h)

/-- A branch has as many bytes as its length says, if that length reaches anything. -/
theorem length_bytes {b : Branch} {code : BranchCode} {distance : Option Int64}
    (hr : b.kind.reaches b.length distance = true) (h : b.bytes = .ok code) :
    code.bytes.length = b.length := by
  unfold bytes at h
  rcases length_of_reaches hr with hl | hl | hl | hl
  · rw [if_pos hl] at h
    cases h
    simp [hl]
  · rw [if_neg (by omega), if_neg (by omega)] at h
    cases hw : b.wideWord with
    | error d => simp [hw, bind, Except.bind] at h
    | ok w =>
      simp only [hw, bind, Except.bind] at h
      rw [if_neg (by omega)] at h
      cases h
      simp [hl]
  · rw [if_neg (by omega), if_pos hl] at h
    cases h
    simp [hl]
  · rw [if_neg (by omega), if_neg (by omega)] at h
    cases hw : b.wideWord with
    | error d => simp [hw, bind, Except.bind] at h
    | ok w =>
      simp only [hw, bind, Except.bind] at h
      rw [if_pos hl] at h
      cases h
      simp [hl]

end Branch

/-! ### Tightening -/

namespace Section

theorem appended_tightenItem (s : Section) (offsets : Array Nat) (start : Nat) (item : Item) :
    (s.tightenItem offsets start item).appended = item.appended := by
  cases item with
  | data bytes fixup => rfl
  | branch b relax =>
    simp only [tightenItem, Branch.tighten, Item.appended]
    split <;> rfl

@[simp] theorem symbols_tighten (s : Section) : s.tighten.symbols = s.symbols := rfl

@[simp] theorem size_items_tighten (s : Section) : s.tighten.items.size = s.items.size := by
  simp [tighten]

theorem getElem?_items_tighten (s : Section) (i : Nat) :
    s.tighten.items.toList[i]? =
      s.items.toList[i]?.map (s.tightenItem s.offsets (startOf s.items.toList i)) := by
  by_cases hi : i < s.items.size
  · obtain ⟨hlt, ho⟩ := Array.getElem?_eq_some_iff.1 (getElem?_offsets_of_le (Nat.le_of_lt hi))
    simp [tighten, hi, ho]
  · have : s.items.size ≤ i := Nat.le_of_not_lt hi
    rw [List.getElem?_eq_none (by simpa using this), List.getElem?_eq_none (by simpa using this)]
    rfl

theorem map_appended_tighten (s : Section) :
    s.tighten.items.toList.map Item.appended = s.items.toList.map Item.appended := by
  apply List.ext_getElem?
  intro i
  rw [List.getElem?_map, List.getElem?_map, getElem?_items_tighten, Option.map_map]
  congr 1
  funext item
  exact appended_tightenItem s _ _ item

/-- Passes over a section keep its symbols and its items apart from their lengths. -/
theorem relax_keeps (n : Nat) (s : Section) :
    (s.relax n).1.symbols = s.symbols ∧
      (s.relax n).1.items.toList.map Item.appended = s.items.toList.map Item.appended := by
  induction n generalizing s with
  | zero => exact ⟨rfl, rfl⟩
  | succ n ih =>
    unfold relax
    simp only
    split
    · exact ⟨rfl, map_appended_tighten s⟩
    · obtain ⟨hs, hi⟩ := ih s.tighten
      exact ⟨hs, hi.trans (map_appended_tighten s)⟩

end Section

/-! ### Emission -/

/-- The piece of an item at an address, where the length of a branch has to reach its target. -/
def Item.Placed (s : Section) (offsets : Array Nat) (start : Nat) (piece : Piece) : Item → Prop
  | .data bytes fixup => piece = ⟨bytes, fixup.map (start, ·)⟩
  | .branch b relax =>
    ∃ code, b.bytes = .ok code ∧
      b.kind.reaches b.length (s.distance? offsets b.target b.offset start) = true ∧
      piece = ⟨code.bytes, some (start + code.patchOffset,
        ⟨code.kind, .symbol b.target b.offset, code.kind.mayRelax relax⟩)⟩

/-- Items that follow each other from an address on, each with its piece. -/
inductive PlacedFrom (s : Section) (offsets : Array Nat) : Nat → List Item → List Piece → Prop where
  | nil {start : Nat} : PlacedFrom s offsets start [] []
  | cons {start : Nat} {item : Item} {items : List Item} {piece : Piece} {pieces : List Piece} :
    item.Placed s offsets start piece → PlacedFrom s offsets (start + item.size) items pieces →
      PlacedFrom s offsets start (item :: items) (piece :: pieces)

theorem Item.Placed.length_bytes {s : Section} {offsets : Array Nat} {start : Nat} {item : Item}
    {piece : Piece} (h : item.Placed s offsets start piece) : piece.bytes.length = item.size := by
  cases item with
  | data bytes fixup =>
    obtain rfl : piece = _ := h
    rfl
  | branch b relax =>
    obtain ⟨code, hc, hr, rfl⟩ := h
    exact Branch.length_bytes hr hc

namespace Section

/-- One item: emission changes the state of a branch only, and gives the piece of the item. -/
theorem emitItem_eq_ok {s : Section} {offsets : Array Nat} {start : Nat} {item item' : Item}
    {piece : Piece} (h : s.emitItem offsets start item = .ok (item', piece)) :
    item'.appended = item.appended ∧ item'.size = item.size ∧
      item'.Placed s offsets start piece := by
  cases item with
  | data bytes fixup =>
    cases h
    exact ⟨rfl, rfl, rfl⟩
  | branch b relax =>
    simp only [emitItem] at h
    cases he : b.emit (s.distance? offsets b.target b.offset start) with
    | error d => simp [he, bind, Except.bind] at h
    | ok pair =>
      obtain ⟨b', code⟩ := pair
      obtain ⟨-, hr, hb, rfl⟩ := Branch.emit_eq_ok_iff.1 he
      simp only [he, bind, Except.bind, Except.ok.injEq, Prod.mk.injEq] at h
      obtain ⟨rfl, rfl⟩ := h
      exact ⟨rfl, rfl, code, hb, hr, rfl⟩

/-- All items: each gives its piece, at the address where the sizes before it put it. -/
theorem emitItems_eq_ok {s : Section} {offsets : Array Nat} {start : Nat} {items items' : List Item}
    {pieces : List Piece} (h : s.emitItems offsets start items = (items', .ok pieces)) :
    items'.map Item.appended = items.map Item.appended ∧
      items'.map Item.size = items.map Item.size ∧ PlacedFrom s offsets start items' pieces := by
  induction items generalizing start items' pieces with
  | nil =>
    cases h
    exact ⟨rfl, rfl, .nil⟩
  | cons item items ih =>
    unfold emitItems at h
    cases he : s.emitItem offsets start item with
    | error d => simp [he] at h
    | ok pair =>
      obtain ⟨item₁, piece⟩ := pair
      obtain ⟨happ, hsize, hplaced⟩ := emitItem_eq_ok he
      cases hr : s.emitItems offsets (start + item.size) items with
      | mk rest outcome =>
        simp only [he, hr, Prod.mk.injEq] at h
        obtain ⟨rfl, ho⟩ := h
        cases outcome with
        | error d => simp [Except.map] at ho
        | ok more =>
          simp only [Except.map, Except.ok.injEq] at ho
          obtain ⟨happ', hsize', hplaced'⟩ := ih hr
          subst ho
          refine ⟨?_, ?_, .cons hplaced (hsize ▸ hplaced')⟩
          · rw [List.map_cons, List.map_cons, happ, happ']
          · rw [List.map_cons, List.map_cons, hsize, hsize']

end Section

/-- The piece of item `i` stands where the sizes of the items before it put it. -/
theorem PlacedFrom.getElem? {s : Section} {offsets : Array Nat} {start : Nat} {items : List Item}
    {pieces : List Piece} (h : PlacedFrom s offsets start items pieces) {i : Nat} {item : Item}
    (hi : items[i]? = some item) :
    ∃ piece, pieces[i]? = some piece ∧ item.Placed s offsets (start + startOf items i) piece := by
  induction h generalizing i with
  | nil => simp at hi
  | @cons start item₀ items piece pieces hplaced _ ih =>
    cases i with
    | zero =>
      simp only [List.getElem?_cons_zero, Option.some.injEq] at hi
      subst hi
      exact ⟨piece, rfl, hplaced⟩
    | succ i =>
      rw [List.getElem?_cons_succ] at hi
      obtain ⟨piece', hp, hplaced'⟩ := ih hi
      refine ⟨piece', hp, ?_⟩
      rwa [startOf_cons_succ, ← Nat.add_assoc]

theorem PlacedFrom.length_bytes {s : Section} {offsets : Array Nat} {start : Nat}
    {items : List Item} {pieces : List Piece} (h : PlacedFrom s offsets start items pieces) :
    pieces.map (·.bytes.length) = items.map Item.size := by
  induction h with
  | nil => rfl
  | cons hplaced _ ih => rw [List.map_cons, List.map_cons, hplaced.length_bytes, ih]

/-! ### A whole layout -/

/-- A successful layout: the passes settle the lengths of `mid`, every item of `mid` gives its piece,
and the pieces make up the layout. -/
structure Section.LaidOut (s s' : Section) (l : Layout) (mid : Section) (pieces : List Piece) :
    Prop where
  settled : s.relax maxPasses = (mid, true)
  symbols : s'.symbols = s.symbols
  appended : s'.items.toList.map Item.appended = s.items.toList.map Item.appended
  sizes : s'.items.toList.map Item.size = mid.items.toList.map Item.size
  placed : PlacedFrom mid mid.offsets 0 s'.items.toList pieces
  assembled : mid.assemblePieces mid.offsets pieces = .ok l

/-- What a layout that succeeds went through. -/
theorem Section.laidOut_of_layout {s s' : Section} {l : Layout} (h : s.layout = (s', .ok l)) :
    ∃ mid pieces, LaidOut s s' l mid pieces := by
  unfold layout at h
  obtain ⟨hsym, happ⟩ := relax_keeps maxPasses s
  split at h
  · cases h
  · rename_i mid hmid
    rw [hmid] at hsym happ
    cases he : mid.emitItems mid.offsets 0 mid.items.toList with
    | mk items outcome =>
      simp only [he] at h
      cases outcome with
      | error d => simp at h
      | ok pieces =>
        obtain ⟨happ', hsize, hplaced⟩ := emitItems_eq_ok he
        simp only [Prod.mk.injEq] at h
        obtain ⟨rfl, hl⟩ := h
        refine ⟨mid, pieces, hmid, hsym, happ'.trans happ, hsize, hplaced, ?_⟩
        cases ha : mid.assemblePieces mid.offsets pieces with
        | error d =>
          rw [ha] at hl
          cases hl
        | ok l' =>
          rw [ha] at hl
          cases hl
          rfl

namespace Section.LaidOut

variable {s s' mid : Section} {l : Layout} {pieces : List Piece}

theorem symbols_mid (h : LaidOut s s' l mid pieces) : mid.symbols = s.symbols := by
  have := (relax_keeps maxPasses s).1
  rwa [h.settled] at this

theorem size_items (h : LaidOut s s' l mid pieces) : s'.items.size = s.items.size := by
  simpa using congrArg List.length h.appended

theorem size_items_mid (h : LaidOut s s' l mid pieces) : mid.items.size = s.items.size := by
  have := congrArg List.length h.sizes
  rw [← h.size_items]
  simpa using this.symm

/-- The addresses that the pieces were placed by are those of the laid out section. -/
theorem getElem?_offsets (h : LaidOut s s' l mid pieces) {i : Nat} (hi : i ≤ s.items.size) :
    mid.offsets[i]? = some (startOf s'.items.toList i) := by
  rw [getElem?_offsets_of_le (by rw [h.size_items_mid]; exact hi), startOf_congr h.sizes]

theorem address? (h : LaidOut s s' l mid pieces) (name : String) :
    mid.address? mid.offsets name =
      s.symbols[name]?.bind fun i =>
        if i ≤ s.items.size then some (startOf s'.items.toList i) else none := by
  unfold Section.address?
  rw [h.symbols_mid]
  cases s.symbols[name]? with
  | none => rfl
  | some i =>
    simp only [Option.bind_some]
    rw [Section.getElem?_offsets, h.size_items_mid, startOf_congr h.sizes]

end Section.LaidOut

end RiscvAssembler

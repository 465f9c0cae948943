import RiscvAssembler.Proofs.Section.Flat

/-!
Distances in the bytes of a section. Filling in a distance adds its bits to one word and leaves the
bytes before and after it alone, so the branches of a layout do not disturb each other:
`Section.LaidOut.filled` gives the final bytes of one item.
-/

namespace RiscvAssembler

/-! ### One field -/

/-- Adding words adds their bytes. -/
theorem Word.zipWith_or_toBytes (w v : Word) (n : Nat) :
    List.zipWith (· ||| ·) (w.toBytes n) (v.toBytes n) = (w ||| v).toBytes n := by
  rw [toBytes, toBytes, toBytes, List.zipWith_map, List.zipWith_self]
  refine List.map_congr_left fun i _ => ?_
  rw [BitVec.ushiftRight_or_distrib, BitVec.setWidth_or]
  rfl

namespace Layout

theorem modify_append_cons (pre post : List UInt8) (a : UInt8) (f : UInt8 → UInt8) :
    (pre ++ a :: post).toArray.modify pre.length f = (pre ++ f a :: post).toArray := by
  rw [List.modify_toArray, List.modify_eq_take_drop]
  simp

theorem foldl_modify {field mid : List UInt8} (hlen : mid.length = field.length)
    (pre post : List UInt8) {o k : Nat} (hk : pre.length = o + k) :
    (field.zipIdx k).foldl (fun bs (b, i) => bs.modify (o + i) (· ||| b))
        (pre ++ mid ++ post).toArray =
      (pre ++ List.zipWith (· ||| ·) mid field ++ post).toArray := by
  induction field generalizing mid pre k with
  | nil =>
    obtain rfl : mid = [] := List.eq_nil_of_length_eq_zero hlen
    rfl
  | cons b field ih =>
    obtain ⟨a, mid, rfl⟩ := List.exists_cons_of_length_eq_add_one hlen
    have hlen' : mid.length = field.length := by simpa using hlen
    have hk' : (pre ++ [a ||| b]).length = o + (k + 1) := by simp [hk, Nat.add_assoc]
    have hrest := ih hlen' (pre ++ [a ||| b]) hk'
    rw [List.zipIdx_cons, List.foldl_cons]
    simp only [← hk, List.append_assoc, List.cons_append]
    rw [modify_append_cons]
    simpa using hrest

/-- A field is added to the bytes in its place. -/
theorem addField_append {field mid : List UInt8} (hlen : mid.length = field.length)
    (pre post : List UInt8) :
    addField (pre ++ mid ++ post).toArray pre.length field =
      (pre ++ List.zipWith (· ||| ·) mid field ++ post).toArray := by
  rw [addField, if_pos (by simp [hlen])]
  exact foldl_modify hlen pre post rfl

/-- A distance that has been filled in is added to the word in its place. -/
theorem fill_append (k : BranchKind) (distance : Int64) (w : Word) (pre post : List UInt8) :
    fill (pre ++ w.toBytes k.reloc.info.size ++ post).toArray pre.length k.reloc distance =
      (pre ++ (w ||| (k.reloc.branchBits? distance).getD 0).toBytes k.reloc.info.size ++
        post).toArray := by
  cases h : k.reloc.branchBits? distance with
  | none => simp [fill, h]
  | some field =>
    simp only [fill, h, Option.getD_some]
    rw [addField_append (by simp), Word.zipWith_or_toBytes]

end Layout

/-! ### The forms of a branch -/

/-- The kind of branch or jump that a branch of any kind is in 32 bits. -/
def BranchKind.wide (k : BranchKind) : BranchKind :=
  if k.isJump then .jump else .branch

/-- The bytes of a branch, by its length: some bytes before, and the word that the distance of a
branch of kind `k` goes into. -/
inductive Branch.Form (b : Branch) : (k : BranchKind) → (before : List UInt8) → (w : Word) → Prop
  | short : b.length = 2 → b.Form b.kind [] b.insn
  | wide {w : Word} : b.length = 4 → b.wideWord = .ok w →
    b.Form b.kind.wide [] w
  | shortOver : b.length = 6 →
    b.Form .jump ((BranchWord.skipShort b.insn).toBytes 2) BranchWord.jal
  | wideOver {w : Word} : b.length = 8 → b.wideWord = .ok w →
    b.Form .jump ((BranchWord.skip w).toBytes 4) BranchWord.jal

/-- The code of a branch has one of the forms. -/
theorem Branch.form_of_bytes {b : Branch} {code : BranchCode} {distance : Option Int64}
    (hr : b.kind.reaches b.length distance = true) (h : b.bytes = .ok code) :
    ∃ k before w, b.Form k before w ∧
      code = ⟨before ++ w.toBytes k.reloc.info.size, before.length, k.reloc⟩ := by
  unfold bytes at h
  rcases length_of_reaches hr with hl | hl | hl | hl
  · rw [if_pos hl] at h
    cases h
    refine ⟨_, _, _, .short hl, ?_⟩
    rw [hl] at hr
    have hk := (short_of_reaches_two hr).1
    have hsize : b.kind.reloc.info.size = 2 := by
      revert hk
      cases b.kind <;> decide
    rw [hsize]
    rfl
  · rw [if_neg (by omega), if_neg (by omega)] at h
    cases hw : b.wideWord with
    | error d => simp [hw, bind, Except.bind] at h
    | ok w =>
      simp only [hw, bind, Except.bind] at h
      rw [if_neg (by omega)] at h
      cases h
      refine ⟨_, _, _, .wide hl hw, ?_⟩
      unfold wideReloc BranchKind.wide
      cases b.kind.isJump <;> rfl
  · rw [if_neg (by omega), if_pos hl] at h
    cases h
    exact ⟨_, _, _, .shortOver hl, rfl⟩
  · rw [if_neg (by omega), if_neg (by omega)] at h
    cases hw : b.wideWord with
    | error d => simp [hw, bind, Except.bind] at h
    | ok w =>
      simp only [hw, bind, Except.bind] at h
      rw [if_pos hl] at h
      cases h
      exact ⟨_, _, _, .wideOver hl hw, rfl⟩

/-! ### One item -/

/-- Data has no relocation that a distance is filled in for. -/
def Item.Inert : Item → Prop
  | .data _ fixup => ∀ f ∈ fixup, BranchKind.ofReloc? f.kind = none
  | .branch .. => True

/-- The final bytes of an item at an address: the distance of a branch is filled in if its target is
in the section and the field can hold it. -/
def Item.Filled (s : Section) (offsets : Array Nat) (start : Nat) (out : List UInt8) : Item → Prop
  | .data bytes _ => out = bytes
  | .branch b _ =>
    ∃ k before w, b.Form k before w ∧
      b.kind.reaches b.length (s.distance? offsets b.target b.offset start) = true ∧
      out = before ++ (w ||| ((s.distance? offsets b.target b.offset (start + before.length)).bind
        k.reloc.branchBits?).getD 0).toBytes k.reloc.info.size

theorem Layout.fillFixup_of_ofReloc?_eq_none (address? : String → Option Nat)
    (bytes : Array UInt8) {offset : Nat} {f : Fixup} (h : BranchKind.ofReloc? f.kind = none) :
    fillFixup address? bytes (offset, f) = bytes := by
  obtain ⟨kind, target, relaxable⟩ := f
  have hbits (d : Int64) : kind.branchBits? d = none := by
    rw [RelocType.branchBits?, show BranchKind.ofReloc? kind = none from h]
  unfold fillFixup
  split
  · rename_i heq
    cases heq
    split
    · rfl
    · rw [fill, hbits]
  · rfl

theorem Layout.fillFixup_append (address? : String → Option Nat) (k : BranchKind)
    (name : String) (addend : Int64) (relaxable : Bool) (w : Word) (pre post : List UInt8) :
    fillFixup address? (pre ++ w.toBytes k.reloc.info.size ++ post).toArray
        (pre.length, ⟨k.reloc, .symbol name addend, relaxable⟩) =
      (pre ++ (w ||| ((distance? address? name addend pre.length).bind
        k.reloc.branchBits?).getD 0).toBytes k.reloc.info.size ++ post).toArray := by
  unfold fillFixup
  cases hd : distance? address? name addend pre.length with
  | none => simp [hd]
  | some d =>
    simp only [hd]
    exact fill_append k d w pre post

/-- Filling in the distances of one item leaves the bytes around it alone. -/
theorem Item.Placed.exists_filled {s : Section} {offsets : Array Nat} {pre : List UInt8}
    {item : Item} {piece : Piece} (h : item.Placed s offsets pre.length piece) (hi : item.Inert) :
    ∃ out, item.Filled s offsets pre.length out ∧ out.length = item.size ∧
      ∀ post, piece.fixup.toList.foldl (Layout.fillFixup (s.address? offsets))
        (pre ++ piece.bytes ++ post).toArray = (pre ++ out ++ post).toArray := by
  cases item with
  | data bytes fixup =>
    obtain rfl : piece = _ := h
    refine ⟨bytes, rfl, rfl, fun post => ?_⟩
    cases fixup with
    | none => rfl
    | some f => exact Layout.fillFixup_of_ofReloc?_eq_none _ _ (hi f rfl)
  | branch b relax =>
    obtain ⟨code, hb, hr, rfl⟩ := h
    have hlen := Branch.length_bytes hr hb
    obtain ⟨k, before, w, hform, rfl⟩ := Branch.form_of_bytes hr hb
    refine ⟨_, ⟨k, before, w, hform, hr, rfl⟩, ?_, fun post => ?_⟩
    · simpa [Item.size] using hlen
    · have := Layout.fillFixup_append (s.address? offsets) k b.target b.offset
        (k.reloc.mayRelax relax) w (pre ++ before) post
      simpa [Section.distance?] using this

/-! ### All items -/

/-- Items that follow each other from an address on, each with its final bytes. -/
inductive FilledFrom (s : Section) (offsets : Array Nat) :
    Nat → List Item → List (List UInt8) → Prop where
  | nil {start : Nat} : FilledFrom s offsets start [] []
  | cons {start : Nat} {item : Item} {items : List Item} {out : List UInt8}
    {outs : List (List UInt8)} : item.Filled s offsets start out → out.length = item.size →
      FilledFrom s offsets (start + item.size) items outs →
      FilledFrom s offsets start (item :: items) (out :: outs)

/-- Filling in all distances gives each item its final bytes. -/
theorem PlacedFrom.exists_filledFrom {s : Section} {offsets : Array Nat} {start : Nat}
    {items : List Item} {pieces : List Piece} (h : PlacedFrom s offsets start items pieces)
    (hi : ∀ item ∈ items, item.Inert) (pre : List UInt8) (hpre : pre.length = start) :
    ∃ outs, FilledFrom s offsets start items outs ∧
      (pieces.filterMap Piece.fixup).foldl (Layout.fillFixup (s.address? offsets))
        (pre ++ pieces.flatMap Piece.bytes).toArray = (pre ++ outs.flatten).toArray := by
  induction h generalizing pre with
  | nil => exact ⟨[], .nil, rfl⟩
  | @cons start item items piece pieces hplaced _ ih =>
    subst hpre
    obtain ⟨out, hfilled, hlen, hfold⟩ := hplaced.exists_filled (hi item (.head _))
    obtain ⟨outs, houts, hrest⟩ := ih (fun item' hmem => hi item' (.tail _ hmem)) (pre ++ out)
      (by rw [List.length_append, hlen])
    refine ⟨out :: outs, .cons hfilled hlen houts, ?_⟩
    have hhead := hfold (pieces.flatMap Piece.bytes)
    rw [List.flatMap_cons, ← List.append_assoc, List.flatten_cons, ← List.append_assoc, ← hrest,
      ← hhead]
    cases hfix : piece.fixup <;> simp [hfix]

/-- The final bytes of item `i` stand at its address. -/
theorem FilledFrom.getElem? {s : Section} {offsets : Array Nat} {start : Nat} {items : List Item}
    {outs : List (List UInt8)} (h : FilledFrom s offsets start items outs) {i : Nat} {item : Item}
    (hi : items[i]? = some item) :
    ∃ out, (outs.flatten.drop (startOf items i)).take item.size = out ∧
      item.Filled s offsets (start + startOf items i) out := by
  induction h generalizing i with
  | nil => simp at hi
  | @cons start item₀ items out outs hfilled hlen _ ih =>
    cases i with
    | zero =>
      simp only [List.getElem?_cons_zero, Option.some.injEq] at hi
      subst hi
      exact ⟨out, by simp [← hlen], hfilled⟩
    | succ i =>
      rw [List.getElem?_cons_succ] at hi
      obtain ⟨out', hout, hfilled'⟩ := ih hi
      refine ⟨out', ?_, ?_⟩
      · rw [← hout, startOf_cons_succ, List.flatten_cons, ← hlen, List.drop_length_add_append]
      · rwa [startOf_cons_succ, ← Nat.add_assoc]

theorem FilledFrom.length_flatten {s : Section} {offsets : Array Nat} {start : Nat}
    {items : List Item} {outs : List (List UInt8)} (h : FilledFrom s offsets start items outs) :
    outs.flatten.length = (items.map Item.size).sum := by
  induction h with
  | nil => rfl
  | cons _ hlen _ ih => rw [List.flatten_cons, List.length_append, hlen, ih, List.map_cons,
      List.sum_cons]

namespace Section.LaidOut

variable {s s' mid : Section} {l : Layout} {pieces : List Piece}

/-- The bytes of a layout are the final bytes of its items. -/
theorem exists_filledFrom (h : LaidOut s s' l mid pieces)
    (hinert : ∀ item ∈ s'.items.toList, item.Inert) :
    ∃ outs, FilledFrom mid mid.offsets 0 s'.items.toList outs ∧ l.bytes = outs.flatten := by
  obtain ⟨outs, houts, hfold⟩ := h.placed.exists_filledFrom hinert [] rfl
  refine ⟨outs, houts, ?_⟩
  rw [h.eq_of_assembled.1]
  simpa using congrArg Array.toList hfold

/-- The final bytes of an item in a layout. -/
theorem filled (h : LaidOut s s' l mid pieces)
    (hinert : ∀ item ∈ s'.items.toList, item.Inert) {i : Nat} {item : Item}
    (hi : s'.items.toList[i]? = some item) :
    item.Filled mid mid.offsets (startOf s'.items.toList i)
      ((l.bytes.drop (startOf s'.items.toList i)).take item.size) := by
  obtain ⟨outs, houts, hbytes⟩ := h.exists_filledFrom hinert
  obtain ⟨out, hout, hfilled⟩ := houts.getElem? hi
  rw [hbytes, hout]
  simpa using hfilled

end Section.LaidOut

end RiscvAssembler

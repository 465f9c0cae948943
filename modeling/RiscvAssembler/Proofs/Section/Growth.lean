import RiscvAssembler.Section.Layout

/-!
Sections grown from nothing by operations. A refused operation leaves the section as it was, so the
items of a section are those of the accepted operations, in order (`items_build`), each as it was
appended.
-/

namespace RiscvAssembler

/-- An operation that grows a section. -/
inductive SectionOp where
  | data (bytes : List UInt8) (fixup : Option Fixup)
  | branch (insn : Word) (kind : RelocType) (target : Expr) (relax : Bool)
  | define (name : String)
deriving DecidableEq, Repr

/-- The item that an operation appends, if it appends one. -/
def SectionOp.item? : SectionOp → Option Item
  | .data bytes fixup => some (.data bytes fixup)
  | .branch insn kind (.symbol name addend) relax =>
    (BranchKind.ofReloc? kind).map fun k => .branch (.new k insn name addend) relax
  | .branch .. => none
  | .define _ => none

namespace Section

/-- The section after an operation. -/
def apply (s : Section) : SectionOp → Section
  | .data bytes fixup => s.appendData bytes fixup
  | .branch insn kind target relax => (s.appendBranch insn kind target relax).toOption.getD s
  | .define name => (s.define name).toOption.getD s

/-- The section that operations grow from nothing. -/
def build (ops : List SectionOp) : Section :=
  ops.foldl apply empty

theorem apply_branch (s : Section) (insn : Word) (kind : RelocType) (target : Expr)
    (relax : Bool) : s.apply (.branch insn kind target relax) =
      match SectionOp.item? (.branch insn kind target relax) with
      | some item => s.push item
      | none => s := by
  cases target with
  | symbol name addend =>
    cases h : BranchKind.ofReloc? kind <;>
      simp [apply, appendBranch, SectionOp.item?, h, Except.toOption]
  | constant v => simp [apply, appendBranch, SectionOp.item?, Except.toOption]
  | register r => simp [apply, appendBranch, SectionOp.item?, Except.toOption]

theorem apply_define_of_defines {s : Section} {name : String} (h : s.defines name = true) :
    s.apply (.define name) = s := by
  simp [apply, define, h, Except.toOption]

theorem apply_define_of_not_defines {s : Section} {name : String} (h : s.defines name = false) :
    s.apply (.define name) = { s with symbols := s.symbols.insert name s.items.size } := by
  simp [apply, define, h, Except.toOption]

theorem items_apply (s : Section) (op : SectionOp) :
    (s.apply op).items.toList = s.items.toList ++ op.item?.toList := by
  cases op with
  | data bytes fixup => simp [apply, appendData, push, SectionOp.item?]
  | branch insn kind target relax =>
    rw [apply_branch]
    cases SectionOp.item? (.branch insn kind target relax) <;> simp [push]
  | define name =>
    cases h : s.defines name with
    | true => simp [apply_define_of_defines h, SectionOp.item?]
    | false => simp [apply_define_of_not_defines h, SectionOp.item?]

theorem items_foldl_apply (s : Section) (ops : List SectionOp) :
    (ops.foldl apply s).items.toList = s.items.toList ++ ops.filterMap SectionOp.item? := by
  induction ops generalizing s with
  | nil => simp
  | cons op ops ih =>
    rw [List.foldl_cons, ih, items_apply, List.append_assoc]
    cases h : op.item? <;> simp [h]

/-- The items of a section are those that its operations appended. -/
theorem items_build (ops : List SectionOp) :
    (build ops).items.toList = ops.filterMap SectionOp.item? := by
  rw [build, items_foldl_apply]
  simp [empty]

theorem symbols_apply_of_item? {s : Section} {op : SectionOp} {item : Item}
    (hop : op.item? = some item) : (s.apply op).symbols = s.symbols := by
  cases op with
  | data bytes fixup => rfl
  | branch insn kind target relax =>
    rw [apply_branch, hop]
    rfl
  | define name => cases hop

theorem size_items_apply (s : Section) (op : SectionOp) :
    (s.apply op).items.size = s.items.size + op.item?.toList.length := by
  simpa using congrArg List.length (items_apply s op)

/-- Every symbol stands before, between or after the items. -/
def Bounded (s : Section) : Prop :=
  ∀ (name : String) (i : Nat), s.symbols[name]? = some i → i ≤ s.items.size

theorem Bounded.apply {s : Section} (hs : s.Bounded) (op : SectionOp) : (s.apply op).Bounded := by
  intro name i h
  rw [size_items_apply]
  cases hop : op.item? with
  | some item =>
    rw [symbols_apply_of_item? hop] at h
    exact Nat.le_add_right_of_le (hs name i h)
  | none =>
    cases op with
    | data bytes fixup => cases hop
    | branch insn kind target relax =>
      rw [apply_branch, hop] at h
      exact hs name i h
    | define defined =>
      cases hd : s.defines defined with
      | true =>
        rw [apply_define_of_defines hd] at h
        exact hs name i h
      | false =>
        rw [apply_define_of_not_defines hd, Std.TreeMap.getElem?_insert] at h
        split at h
        · cases h
          exact Nat.le_refl _
        · exact hs name i h

theorem Bounded.foldl_apply {s : Section} (hs : s.Bounded) (ops : List SectionOp) :
    (ops.foldl Section.apply s).Bounded := by
  induction ops generalizing s with
  | nil => exact hs
  | cons op ops ih => exact ih (hs.apply op)

theorem bounded_build (ops : List SectionOp) : (build ops).Bounded := by
  refine Bounded.foldl_apply (s := empty) (fun name i h => ?_) ops
  simp [empty] at h

end Section

/-- The branch as it was appended. -/
def Branch.appended (b : Branch) : Branch :=
  .new b.kind b.insn b.target b.offset

/-- The item as it was appended: layout changes the length and the state of a branch only. -/
def Item.appended : Item → Item
  | .data bytes fixup => .data bytes fixup
  | .branch b relax => .branch (.new b.kind b.insn b.target b.offset) relax

theorem Item.filterMap_branch?_appended (items : List Item) :
    (items.map appended).filterMap branch? = (items.filterMap branch?).map Branch.appended := by
  rw [List.filterMap_map, List.map_filterMap]
  congr 1
  funext item
  cases item <;> rfl

theorem SectionOp.appended_of_item? {op : SectionOp} {item : Item} (h : op.item? = some item) :
    item.appended = item := by
  cases op with
  | data bytes fixup =>
    cases h
    rfl
  | branch insn kind target relax =>
    cases target with
    | symbol name addend =>
      obtain ⟨k, -, rfl⟩ := Option.map_eq_some_iff.1 h
      rfl
    | constant v => cases h
    | register r => cases h
  | define name => cases h

theorem Section.map_appended_build (ops : List SectionOp) :
    (build ops).items.toList.map Item.appended = (build ops).items.toList := by
  rw [items_build]
  refine (List.map_congr_left fun item hmem => ?_).trans (List.map_id _)
  obtain ⟨op, -, hop⟩ := List.mem_filterMap.1 hmem
  exact SectionOp.appended_of_item? hop

end RiscvAssembler

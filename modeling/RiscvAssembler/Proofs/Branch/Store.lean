import RiscvAssembler.Branch.Store

/-!
Calls on a collection of branches, as functions of the collection: what each answers, and the
collection after it.
-/

namespace RiscvAssembler

namespace BranchStore

theorem get?_push_of_get? {s : BranchStore} {i : Nat} {b : Branch} (h : s.get? i = some b)
    (new : Branch) : (s.push new).get? i = some b := by
  obtain ⟨hi, -⟩ := Array.getElem?_eq_some_iff.1 h
  rw [get?, push, Array.getElem?_push_lt hi, ← Array.getElem?_eq_getElem hi]
  exact h

theorem get?_replace_self {s : BranchStore} {i : Nat} {b : Branch} (h : s.get? i = some b)
    (b' : Branch) : (s.replace i b').get? i = some b' := by
  obtain ⟨hi, -⟩ := Array.getElem?_eq_some_iff.1 h
  simp [get?, replace, hi]

theorem get?_replace_of_ne {i j : Nat} (h : i ≠ j) (s : BranchStore) (b : Branch) :
    (s.replace i b).get? j = s.get? j := by
  simp [get?, replace, h]

/-- The branch between others. -/
theorem get?_between (front back : List Branch) (b : Branch) :
    get? ⟨(front ++ b :: back).toArray⟩ front.length = some b := by
  simp [get?]

theorem replace_between (front back : List Branch) (b b' : Branch) :
    replace ⟨(front ++ b :: back).toArray⟩ front.length b' = ⟨(front ++ b' :: back).toArray⟩ := by
  simp [replace]

end BranchStore

namespace BranchStoreM

theorem bind_run {α β : Type} (x : BranchStoreM α) (f : α → BranchStoreM β) (s : BranchStore) :
    (x >>= f) s =
      match x s with
      | .ok a s' => f a s'
      | .error d s' => .error d s' := by
  change EStateM.bind x f s = _
  unfold EStateM.bind
  cases x s <;> rfl

theorem get_run (s : BranchStore) : (get : BranchStoreM BranchStore) s = .ok s s := rfl

variable (s : BranchStore) (i : Nat) (distance : Option Int64)

theorem find_run : find i s =
    match s.get? i with
    | none => .error (.impossible (.noBranch i)) s
    | some b => .ok b s := by
  rw [find, bind_run, get_run]
  dsimp only
  cases s.get? i <;> rfl

theorem create_run (insn : Word) (kind : RelocType) (target : String) (offset : Int64) :
    create insn kind target offset s =
      match BranchKind.ofReloc? kind with
      | none => .error (.impossible (.notABranch kind)) s
      | some k => .ok s.branches.size (s.push (.new k insn target offset)) := by
  unfold create
  cases BranchKind.ofReloc? kind <;> rfl

theorem tighten_run : tighten i distance s =
    match s.get? i with
    | none => .error (.impossible (.noBranch i)) s
    | some b => .ok (b.tighten distance).length (s.replace i (b.tighten distance)) := by
  rw [tighten, bind_run, find_run]
  cases s.get? i <;> rfl

theorem emit_run : emit i distance s =
    match s.get? i with
    | none => .error (.impossible (.noBranch i)) s
    | some b =>
      match b.emit distance with
      | .error d => .error d s
      | .ok (b', code) => .ok code (s.replace i b') := by
  rw [emit, bind_run, find_run]
  cases s.get? i with
  | none => rfl
  | some b =>
    dsimp only
    cases b.emit distance <;> rfl

theorem discard_run {α : Type} (x : BranchStoreM α) : (discard x : BranchStoreM Unit) s =
    match x s with
    | .ok _ s' => .ok () s'
    | .error d s' => .error d s' := by
  change EStateM.map _ x s = _
  unfold EStateM.map
  cases x s <;> rfl

end BranchStoreM

end RiscvAssembler

import RiscvAssembler.Proofs.Branch.Store
import RiscvAssembler.Proofs.Section.Relaxation

/-!
Branches over the calls on their collection. A call that fails changes nothing, and one that
succeeds adds a branch or takes one step with one branch (`BranchCall.run_cases`). What a step keeps
and what it moves is said once (`Branch.Step.advances`), and so holds between any two moments of a
run (`branches_follow_their_lifecycle`).
-/

namespace RiscvAssembler

/-! ### One branch -/

/-- The lengths that a branch of a kind may be given. -/
def BranchKind.Allows (k : BranchKind) (length : Nat) : Prop :=
  if k.isJump then length = 4 ∨ length = 2 ∧ k.isShort = true
  else length = 4 ∨ length = 8 ∨ (length = 2 ∨ length = 6) ∧ k.isShort = true

theorem BranchKind.allows_lengthAt (k : BranchKind) (d : Option Int64) :
    k.Allows (k.lengthAt d) := by
  cases d with
  | none => cases k <;> simp [Allows, lengthAt, farLength, isJump]
  | some d =>
    unfold Allows lengthAt
    cases k <;> simp only [farLength, isJump, isShort] <;> grind

/-- The state that comes after a state, if it is not the last one. -/
def BranchState.next? : BranchState → Option BranchState
  | .unresolved => some .resolved
  | .resolved => some .emitted
  | .emitted => none

/-- How many states come before a state. -/
def BranchState.rank : BranchState → Nat
  | .unresolved => 0
  | .resolved => 1
  | .emitted => 2

namespace Branch

/-- The length of a branch is the longest one until it is chosen, and then one of its kind. -/
structure WellSized (b : Branch) : Prop where
  unresolved : b.state = .unresolved → b.length = 8
  chosen : b.state ≠ .unresolved → b.kind.Allows b.length

/-- What a call does with a branch. -/
inductive Step (b : Branch) : Branch → Prop where
  | tighten (distance : Option Int64) : b.Step (b.tighten distance)
  | emit {distance : Option Int64} {b' : Branch} {code : BranchCode}
    (h : b.emit distance = .ok (b', code)) : b.Step b'

/-- A branch at a later time: it is the same branch, not longer than before, and its length stays
once its bytes are out. -/
structure Advances (b b' : Branch) : Prop where
  kind : b'.kind = b.kind
  target : b'.target = b.target
  offset : b'.offset = b.offset
  insn : b'.insn = b.insn
  state : b.state.rank ≤ b'.state.rank
  length : b'.length ≤ b.length
  final : b.state = .emitted → b'.length = b.length

theorem Advances.refl (b : Branch) : b.Advances b :=
  ⟨rfl, rfl, rfl, rfl, Nat.le_refl _, Nat.le_refl _, fun _ => rfl⟩

theorem Advances.trans {b b' b'' : Branch} (h : b.Advances b') (h' : b'.Advances b'') :
    b.Advances b'' where
  kind := h'.kind.trans h.kind
  target := h'.target.trans h.target
  offset := h'.offset.trans h.offset
  insn := h'.insn.trans h.insn
  state := Nat.le_trans h.state h'.state
  length := Nat.le_trans h'.length h.length
  final := by
    intro hemitted
    have hlast : b'.state = .emitted := by
      have hrank := h.state
      rw [hemitted] at hrank
      cases hstate : b'.state with
      | emitted => rfl
      | unresolved | resolved =>
        rw [hstate] at hrank
        exact absurd hrank (by decide)
    exact (h'.final hlast).trans (h.final hemitted)

theorem wellSized_new (kind : BranchKind) (insn : Word) (target : String) (offset : Int64) :
    (Branch.new kind insn target offset).WellSized :=
  ⟨fun _ => rfl, fun h => absurd rfl h⟩

theorem WellSized.tighten {b : Branch} (h : b.WellSized) (d : Option Int64) :
    (b.tighten d).WellSized := by
  unfold Branch.tighten
  split
  · exact h
  · refine ⟨fun hs => BranchState.noConfusion hs, fun _ => ?_⟩
    change b.kind.Allows (min (b.kind.lengthAt d) b.length)
    by_cases hs : b.state = .unresolved
    · -- Nothing was chosen before, and no distance calls for more than eight bytes.
      have hle : b.kind.lengthAt d ≤ b.length := by
        rw [h.unresolved hs]
        rcases b.kind.lengthAt_cases d with hd | hd | hd | hd <;> omega
      rw [Nat.min_eq_left hle]
      exact b.kind.allows_lengthAt d
    · rcases Nat.le_total (b.kind.lengthAt d) b.length with hle | hle
      · rw [Nat.min_eq_left hle]
        exact b.kind.allows_lengthAt d
      · rw [Nat.min_eq_right hle]
        exact h.chosen hs

theorem WellSized.step {b b' : Branch} (h : b.WellSized) (hstep : b.Step b') : b'.WellSized := by
  cases hstep with
  | tighten d => exact h.tighten d
  | emit hemit =>
    obtain ⟨hchosen, -, -, rfl⟩ := emit_eq_ok_iff.1 hemit
    exact ⟨fun hs => BranchState.noConfusion hs, fun _ => h.chosen hchosen⟩

/-- **A step moves a branch by one state at most.** -/
theorem Step.state {b b' : Branch} (h : b.Step b') :
    b'.state = b.state ∨ b.state.next? = some b'.state := by
  cases h with
  | tighten d =>
    unfold Branch.tighten
    cases hstate : b.state with
    | unresolved => exact .inr rfl
    | resolved => exact .inl rfl
    | emitted => exact .inl hstate
  | emit hemit =>
    obtain ⟨hchosen, -, -, rfl⟩ := emit_eq_ok_iff.1 hemit
    cases hstate : b.state with
    | unresolved => exact absurd hstate hchosen
    | resolved => exact .inr rfl
    | emitted => exact .inl rfl

theorem Step.rank_le {b b' : Branch} (h : b.Step b') : b.state.rank ≤ b'.state.rank := by
  rcases h.state with hsame | hnext
  · exact Nat.le_of_eq (congrArg BranchState.rank hsame.symm)
  · cases hstate : b.state with
    | unresolved | resolved =>
      rw [hstate] at hnext
      rw [← Option.some.inj hnext]
      decide
    | emitted =>
      rw [hstate] at hnext
      cases hnext

/-- **What a step keeps.** -/
theorem Step.advances {b b' : Branch} (h : b.Step b') : b.Advances b' := by
  have hrank := h.rank_le
  cases h with
  | tighten d =>
    have hlength := b.length_tighten_le d
    unfold Branch.tighten at hrank hlength ⊢
    split
    · exact .refl b
    · rename_i hs
      rw [if_neg hs] at hrank hlength
      exact ⟨rfl, rfl, rfl, rfl, hrank, hlength, fun h => absurd h hs⟩
  | emit hemit =>
    obtain ⟨-, -, -, rfl⟩ := emit_eq_ok_iff.1 hemit
    exact ⟨rfl, rfl, rfl, rfl, hrank, Nat.le_refl _, fun _ => rfl⟩

/-- The bytes of a branch are as many as its length says, and the place of the relocation ends with
them. -/
theorem code_of_emit {b b' : Branch} {distance : Option Int64} {code : BranchCode}
    (h : b.emit distance = .ok (b', code)) :
    code.bytes.length = b.length ∧ code.patchOffset < b.length ∧
      code.patchOffset + code.kind.info.size = b.length := by
  obtain ⟨-, hreaches, hbytes, -⟩ := emit_eq_ok_iff.1 h
  have hlength := length_bytes hreaches hbytes
  obtain ⟨k, before, w, -, rfl⟩ := form_of_bytes hreaches hbytes
  rw [← hlength]
  have hsize : 0 < k.reloc.info.size := by cases k <;> decide
  simp only [List.length_append, Word.length_toBytes]
  exact ⟨trivial, by omega, trivial⟩

end Branch

/-! ### Calls -/

/-- A call on a collection of branches. -/
inductive BranchCall where
  | create (insn : Word) (kind : RelocType) (target : String) (offset : Int64)
  | tighten (i : Nat) (distance : Option Int64)
  | emit (i : Nat) (distance : Option Int64)
deriving DecidableEq, Repr

/-- Makes a call and drops the answer. -/
def BranchCall.run : BranchCall → BranchStoreM Unit
  | .create insn kind target offset => discard (BranchStoreM.create insn kind target offset)
  | .tighten i distance => discard (BranchStoreM.tighten i distance)
  | .emit i distance => discard (BranchStoreM.emit i distance)

namespace BranchStore

/-- The collection after a call, whether it succeeds or fails. -/
def after (s : BranchStore) (call : BranchCall) : BranchStore :=
  match call.run s with
  | .ok _ s' => s'
  | .error _ s' => s'

/-- The collection after calls, one after the other. -/
def afterAll (s : BranchStore) (calls : List BranchCall) : BranchStore :=
  calls.foldl after s

end BranchStore

/-- **What a call can do.** It fails and changes nothing, or adds a branch, or takes a step with
one. -/
theorem BranchCall.run_cases (call : BranchCall) (s : BranchStore) :
    (∃ d, call.run s = .error d s) ∨
      (∃ k insn target offset, call.run s = .ok () (s.push (.new k insn target offset))) ∨
      ∃ i b b', s.get? i = some b ∧ b.Step b' ∧ call.run s = .ok () (s.replace i b') := by
  cases call with
  | create insn kind target offset =>
    rw [run, BranchStoreM.discard_run, BranchStoreM.create_run]
    cases BranchKind.ofReloc? kind with
    | none => exact .inl ⟨_, rfl⟩
    | some k => exact .inr (.inl ⟨k, insn, target, offset, rfl⟩)
  | tighten i distance =>
    rw [run, BranchStoreM.discard_run, BranchStoreM.tighten_run]
    cases hb : s.get? i with
    | none => exact .inl ⟨_, rfl⟩
    | some b => exact .inr (.inr ⟨i, b, _, hb, .tighten distance, rfl⟩)
  | emit i distance =>
    rw [run, BranchStoreM.discard_run, BranchStoreM.emit_run]
    cases hb : s.get? i with
    | none => exact .inl ⟨_, rfl⟩
    | some b =>
      cases hemit : b.emit distance with
      | error d => exact .inl ⟨d, by simp only [hemit]⟩
      | ok pair =>
        obtain ⟨b', code⟩ := pair
        exact .inr (.inr ⟨i, b, b', hb, .emit hemit, by simp only [hemit]⟩)

theorem BranchCall.run_error {call : BranchCall} {s s' : BranchStore} {d : Defect}
    (h : call.run s = .error d s') : s' = s := by
  rcases call.run_cases s with ⟨d', hrun⟩ | ⟨k, insn, target, offset, hrun⟩ | ⟨i, b, b', -, -, hrun⟩
  · rw [hrun] at h
    cases h
    rfl
  · rw [hrun] at h
    cases h
  · rw [hrun] at h
    cases h

namespace BranchStore

/-- The collection after a call, case by case. -/
theorem after_cases (s : BranchStore) (call : BranchCall) :
    s.after call = s ∨ (∃ k insn target offset, s.after call = s.push (.new k insn target offset)) ∨
      ∃ i b b', s.get? i = some b ∧ b.Step b' ∧ s.after call = s.replace i b' := by
  unfold after
  rcases call.run_cases s with ⟨d, hrun⟩ | ⟨k, insn, target, offset, hrun⟩ |
      ⟨i, b, b', hb, hstep, hrun⟩
  · exact .inl (by rw [hrun])
  · exact .inr (.inl ⟨k, insn, target, offset, by rw [hrun]⟩)
  · exact .inr (.inr ⟨i, b, b', hb, hstep, by rw [hrun]⟩)

/-- A branch after a call: it is as it was, or has taken a step. -/
theorem get?_after {s : BranchStore} {i : Nat} {b : Branch} (h : s.get? i = some b)
    (call : BranchCall) : ∃ b', (s.after call).get? i = some b' ∧ (b' = b ∨ b.Step b') := by
  rcases s.after_cases call with hafter | ⟨k, insn, target, offset, hafter⟩ |
      ⟨j, c, c', hc, hstep, hafter⟩ <;> rw [hafter]
  · exact ⟨b, h, .inl rfl⟩
  · exact ⟨b, get?_push_of_get? h _, .inl rfl⟩
  · by_cases hj : j = i
    · subst hj
      rw [h] at hc
      cases hc
      exact ⟨c', get?_replace_self h c', .inr hstep⟩
    · exact ⟨b, (get?_replace_of_ne hj s c').trans h, .inl rfl⟩

/-- Every branch has a length that it may have. -/
def WellSized (s : BranchStore) : Prop :=
  ∀ b ∈ s.branches, b.WellSized

theorem WellSized.after {s : BranchStore} (h : s.WellSized) (call : BranchCall) :
    (s.after call).WellSized := by
  rcases s.after_cases call with hafter | ⟨k, insn, target, offset, hafter⟩ |
      ⟨i, b, b', hb, hstep, hafter⟩ <;> rw [hafter]
  · exact h
  · intro c hc
    rcases Array.mem_push.1 hc with hold | rfl
    · exact h c hold
    · exact Branch.wellSized_new k insn target offset
  · intro c hc
    rcases Array.mem_or_eq_of_mem_setIfInBounds hc with hold | rfl
    · exact h c hold
    · exact (h b (Array.mem_of_getElem? hb)).step hstep

theorem WellSized.afterAll {s : BranchStore} (h : s.WellSized) (calls : List BranchCall) :
    (s.afterAll calls).WellSized := by
  induction calls generalizing s with
  | nil => exact h
  | cons call calls ih => exact ih (h.after call)

/-- A branch after any number of calls. -/
theorem get?_afterAll {s : BranchStore} {i : Nat} {b : Branch} (h : s.get? i = some b)
    (calls : List BranchCall) : ∃ b', (s.afterAll calls).get? i = some b' ∧ b.Advances b' := by
  induction calls generalizing s b with
  | nil => exact ⟨b, h, .refl b⟩
  | cons call calls ih =>
    obtain ⟨b', hb', hstep⟩ := get?_after h call
    have hadvances : b.Advances b' := by
      rcases hstep with rfl | hstep
      · exact .refl b'
      · exact hstep.advances
    obtain ⟨b'', hb'', hrest⟩ := ih hb'
    exact ⟨b'', hb'', hadvances.trans hrest⟩

/-- **Branches follow their lifecycle.** After any calls, with any numbers and distances, every
branch has a length that its state and kind allow. Whatever call comes next, each branch keeps its
kind, word and target, does not grow, and moves to the next state at most; so it is with all calls
to come, and the length of an emitted branch stays. A call that answers with bytes gives as many as
the length says, with the place of the relocation among them, and a call that fails changes
nothing. -/
theorem branches_follow_their_lifecycle (calls : List BranchCall) :
    let s := empty.afterAll calls
    s.WellSized ∧
    (∀ (call : BranchCall) (i : Nat) (b : Branch), s.get? i = some b →
      ∃ b', (s.after call).get? i = some b' ∧ b.Advances b' ∧
        (b'.state = b.state ∨ b.state.next? = some b'.state)) ∧
    (∀ (more : List BranchCall) (i : Nat) (b : Branch), s.get? i = some b →
      ∃ b', (s.afterAll more).get? i = some b' ∧ b.Advances b') ∧
    (∀ (i : Nat) (distance : Option Int64) (code : BranchCode) (s' : BranchStore),
      BranchStoreM.emit i distance s = .ok code s' →
      ∃ b, s.get? i = some b ∧ s' = s.replace i { b with state := .emitted } ∧
        code.bytes.length = b.length ∧ code.patchOffset < b.length ∧
        code.patchOffset + code.kind.info.size = b.length) ∧
    ∀ (call : BranchCall) (d : Defect) (s' : BranchStore), call.run s = .error d s' → s' = s := by
  intro s
  have hempty : empty.WellSized := by
    intro b hb
    cases Array.not_mem_empty b hb
  refine ⟨hempty.afterAll calls, ?_, fun more i b hb => get?_afterAll hb more, ?_,
    fun call d s' h => call.run_error h⟩
  · intro call i b hb
    obtain ⟨b', hb', hstep⟩ := get?_after hb call
    refine ⟨b', hb', ?_⟩
    rcases hstep with rfl | hstep
    · exact ⟨.refl b', .inl rfl⟩
    · exact ⟨hstep.advances, hstep.state⟩
  · intro i distance code s' hemit
    rw [BranchStoreM.emit_run] at hemit
    split at hemit
    · cases hemit
    · rename_i b hb
      split at hemit
      · cases hemit
      · rename_i b' code' hcode
        cases hemit
        obtain ⟨-, -, -, rfl⟩ := Branch.emit_eq_ok_iff.1 hcode
        exact ⟨b, hb, rfl, Branch.code_of_emit hcode⟩

/-- A compressed branch that is asked for too early, finds its target far off, and then near. -/
def farBranchCalls : List BranchCall :=
  [.create 0xc101 .rvcBranch "target" 4, .emit 0 (some 5000), .tighten 0 (some 5000),
    .tighten 1 none]

/-- Six bytes are left of the eight, and two after the next call. -/
theorem branches_follow_their_lifecycle_farBranch :
    (empty.afterAll farBranchCalls).get? 0 =
        some ⟨.shortBranch, 6, "target", 4, 0xc101, .resolved⟩ ∧
      ((empty.afterAll farBranchCalls).after (.tighten 0 (some 40))).get? 0 =
        some ⟨.shortBranch, 2, "target", 4, 0xc101, .resolved⟩ ∧
      (empty.afterAll farBranchCalls).WellSized ∧
      ∃ code s', BranchStoreM.emit 0 (some 5000) (empty.afterAll farBranchCalls) = .ok code s' ∧
        code.bytes.length = 6 ∧ code.patchOffset + code.kind.info.size = 6 := by
  obtain ⟨hsized, -, -, hemit, -⟩ := branches_follow_their_lifecycle farBranchCalls
  have hbranch : (empty.afterAll farBranchCalls).get? 0 =
      some ⟨.shortBranch, 6, "target", 4, 0xc101, .resolved⟩ := by decide +kernel
  refine ⟨hbranch, by decide +kernel, hsized, ?_⟩
  have hcode : ∃ code s', BranchStoreM.emit 0 (some 5000) (empty.afterAll farBranchCalls) =
      .ok code s' := ⟨_, _, rfl⟩
  obtain ⟨code, s', hcode⟩ := hcode
  obtain ⟨b, hb, -, hlength, -, hpatch⟩ := hemit 0 (some 5000) code s' hcode
  rw [hbranch] at hb
  cases hb
  exact ⟨code, s', hcode, hlength, hpatch⟩

end BranchStore

end RiscvAssembler

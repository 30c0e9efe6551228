import Foros.Raft.Proof.Path
import Foros.Raft.Proof.Pending

/-!
# A node without crashes

Whatever database it opens and whatever it is sent, the log of a node has its entries at their ids,
and a pending commit belongs to its leadership (`ServiceRun.sound`).
-/

namespace Foros

/-- A database is opened with entries at their ids, whatever it holds. -/
theorem ContextStore.indexed_initLogsFrom (ok : Nat → Bool) :
    ∀ (fuel i : Nat) (s : ContextStore), Logs.Indexed s.logs → s.logs.length = i →
      Logs.Indexed (initLogsFrom ok fuel i s).logs
  | 0, _, _, h, _ => h
  | fuel + 1, i, s, h, hi => by
    rw [initLogsFrom_succ]
    split
    · cases hload : s.db.loadLog i with
      | none =>
        have hlogs : (s.storeLogsSize ok i).2.logs = s.logs := by
          unfold storeLogsSize put
          split <;> rfl
        simp only
        rw [hlogs]
        exact h
      | some log =>
        have hid : log.id = i := by
          unfold LevelDB.loadLog at hload
          split at hload
          · cases hload
          · split at hload
            · cases hload
            · cases hload
              rfl
        exact indexed_initLogsFrom ok fuel (i + 1) _ (h.push (hid.trans hi.symm)) (by simp [hi])
    · exact h

/-- A node that has just started has no pending commit and has given no notice. -/
theorem Node.create_sound (ids : List Nat) (me : Nat) (db : LevelDB) :
    (create .plain ids me db).core.Sound ∧ (create .plain ids me db).visible = [] := by
  have hspec : ∀ n : Node, n.state = .standby → n.pendingCommit = none → n.visible = [] →
      Logs.Indexed n.store.logs →
      (handle .plain .started n).core.Sound ∧ (handle .plain .started n).visible = [] := by
    intro n hs hp hv hi
    obtain ⟨h1, -⟩ := started_spec hs
    rw [h1.core, h1.visible, hv]
    exact ⟨⟨hi, .of_none hp⟩, rfl⟩
  refine hspec _ rfl rfl ?_ ?_
  · apply List.filter_eq_nil_iff.2
    intro e he
    obtain ⟨p, -, rfl⟩ := List.mem_map.1 he
    exact Bool.false_ne_true
  · exact ContextStore.indexed_initLogsFrom _ _ _ _ Logs.indexed_nil rfl

/-- A callback of a node that is sent any requests. -/
theorem Node.run_sound {n : Node} (h : n.core.Sound) {input : Input} (hin : input.HasCommand) :
    ∃ es, n.core.Step input (run .plain input n).core es ∧ (run .plain input n).visible = es ∧
      (run .plain input n).core.Sound := by
  obtain ⟨c, es, hs, rfl, hv, -⟩ := run_step (fun log hl => h.indexed.getLast hl) input
  exact ⟨es, hs, hv, h.step hin hs⟩

/-- A step of a node is a callback. -/
theorem Life.service_step {ids : List Nat} {me : Nat} {db : LevelDB} {l l' : Life} {input : Input}
    (hs : (Life.service ids me db).step l input = some l') :
    l' = ⟨l.node.run .plain input, l.effects ++ (l.node.run .plain input).trace⟩ :=
  (Option.some.inj (Option.ite_none_left_eq_some.1 hs).2).symm

/-- The nodes of a run are sound. -/
theorem ServiceRun.sound {ids : List Nat} {me : Nat} {db : LevelDB} {h : List Life}
    (hr : ServiceRun ids me db (fun _ input => input.HasCommand) h) :
    ∀ l ∈ h, l.node.core.Sound := by
  refine hr.forall_mem (Node.create_sound ids me db).1 fun l input l' hl hin hs => ?_
  obtain ⟨es, -, -, hl'⟩ := Node.run_sound hl hin
  rw [Life.service_step hs]
  exact hl'

end Foros

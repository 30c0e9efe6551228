import Foros.Raft.Proof.Store

/-!
# Crashes of the store

A history of the store is a list of `StoreEvent`s: an operation, or an operation cut after some
of its `Put`s by a crash, after which the database is opened again. The invariant of a history is
that the database holds the context in memory (`inv_run`); a cut operation leaves a database that
holds the context before it or after it (`holds_crash`).
-/

namespace Foros

open Lib

/-- The operations that change the store. -/
inductive StoreOp
  | currentTerm (term : Nat)
  | votedFor (id : Nat)
  | voted (voted : Bool)
  | pushLog (log : Option LogEntry)
  | revertLog (id : Nat)
  deriving DecidableEq, Repr

namespace StoreOp

/-- The operation, every `Put` succeeding. -/
def run (o : StoreOp) (s : ContextStore) : ContextStore :=
  match o with
  | .currentTerm term => (s.setCurrentTerm (fun _ => true) term).2
  | .votedFor id => (s.setVotedFor (fun _ => true) id).2
  | .voted b => (s.setVoted (fun _ => true) b).2
  | .pushLog log => (s.pushLog (fun _ => true) log).2
  | .revertLog id => (s.revertLog (fun _ => true) id).2

/-- The arguments are values of their types, and so is the size of the log where a push goes on at
its end. -/
def Typed (s : ContextStore) : StoreOp → Prop
  | .currentTerm term => term < 2 ^ 64
  | .votedFor id => id < 2 ^ 32
  | .voted _ => True
  | .pushLog log => ∀ e ∈ log, e.id < 2 ^ 64 ∧ e.term < 2 ^ 64 ∧
      (e.id = s.logs.length → s.logs.length + 1 < 2 ^ 64)
  | .revertLog id => id < 2 ^ 64

instance (s : ContextStore) : (o : StoreOp) → Decidable (o.Typed s)
  | .currentTerm _ => inferInstanceAs (Decidable (_ < _))
  | .votedFor _ => inferInstanceAs (Decidable (_ < _))
  | .voted _ => inferInstanceAs (Decidable True)
  | .pushLog log => inferInstanceAs (Decidable (∀ e ∈ log, _))
  | .revertLog _ => inferInstanceAs (Decidable (_ < _))

/-- The database when the process dies after the first `k` `Put`s of the operation. -/
def crashDb (o : StoreOp) (k : Nat) (s : ContextStore) : LevelDB :=
  s.db.putAll ((o.run { s with journal := [] }).journal.take k)

end StoreOp

/-- The database opened again, every `Put` succeeding. -/
def reopen (db : LevelDB) : ContextStore := ContextStore.create (fun _ => true) db

/-- An operation, or an operation cut after `k` `Put`s with the database opened again. -/
inductive StoreEvent
  | op (o : StoreOp)
  | crash (o : StoreOp) (k : Nat)
  deriving DecidableEq, Repr

/-- The term and the vote a history has stored last. -/
structure Stored where
  term : Nat := 0
  votedFor : Nat := 0
  voted : Bool := false
  deriving DecidableEq, Repr

def Stored.apply (a : Stored) : StoreOp → Stored
  | .currentTerm term => { a with term := term }
  | .votedFor id => { a with votedFor := id }
  | .voted b => { a with voted := b }
  | _ => a

namespace StoreEvent

def run : StoreEvent → ContextStore → ContextStore
  | .op o, s => o.run s
  | .crash o k, s => reopen (o.crashDb k s)

/-- The operation of an event. -/
def operation : StoreEvent → StoreOp
  | .op o => o
  | .crash o _ => o

/-- An operation on the term or the vote is one `Put`: it is stored unless it is cut before. -/
def stored (a : Stored) : StoreEvent → Stored
  | .op o => a.apply o
  | .crash o k => if k = 0 then a else a.apply o

end StoreEvent

/-- The store after a history that starts on an empty database. -/
def runStore (es : List StoreEvent) : ContextStore :=
  es.foldl (fun s e => e.run s) (reopen .empty)

/-- The operations of a history that goes on from `s` are typed. -/
def TypedFrom : ContextStore → List StoreEvent → Prop
  | _, [] => True
  | s, e :: es => e.operation.Typed s ∧ TypedFrom (e.run s) es

instance decidableTypedFrom : (s : ContextStore) → (es : List StoreEvent) →
    Decidable (TypedFrom s es)
  | _, [] => inferInstanceAs (Decidable True)
  | s, e :: es =>
    have := decidableTypedFrom (e.run s) es
    inferInstanceAs (Decidable (_ ∧ _))

/-- What a history has stored last; nothing stored is `0`, `0` and `false`. -/
def lastStored (es : List StoreEvent) : Stored := es.foldl StoreEvent.stored {}

/-- The stored part of the context in memory. -/
def ContextStore.stored (s : ContextStore) : Stored := ⟨s.currentTerm, s.votedFor, s.voted⟩

/-! ## One operation -/

namespace StoreOp

variable {s : ContextStore}

/-- What an accepted push does. -/
theorem run_pushLog {log : LogEntry} {data : Bytes} (hc : log.command = some data)
    (hid : log.id = s.logs.length) :
    (StoreOp.pushLog (some log)).run s =
      { s with
        logs := s.logs ++ [log]
        db := ((s.db.put (getLogTermKey log.id) (encodeLE 8 log.term)).put
          (getLogDataKey log.id) data).put kLogSizeKey (encodeLE 8 (s.logs.length + 1))
        journal := s.journal ++ [(getLogTermKey log.id, encodeLE 8 log.term)] ++
          [(getLogDataKey log.id, data)] ++ [(kLogSizeKey, encodeLE 8 (s.logs.length + 1))]
        attempts := s.attempts + 1 + 1 + 1 } := by
  simp only [run, ContextStore.pushLog, hc, hid, ne_eq, not_true_eq_false, if_false]
  rfl

/-- A rejected push does nothing. -/
theorem run_pushLog_rejected {log : Option LogEntry}
    (h : ∀ e ∈ log, e.command = none ∨ e.id ≠ s.logs.length) :
    (StoreOp.pushLog log).run s = s := by
  cases log with
  | none => rfl
  | some e =>
    rcases h e rfl with hc | hid
    · simp [run, ContextStore.pushLog, hc]
    · cases hc : e.command <;> simp [run, ContextStore.pushLog, hc, hid]

theorem run_revertLog {id : Nat} (h : id < s.logs.length) :
    (StoreOp.revertLog id).run s =
      { s with
        logs := s.logs.take id
        db := s.db.put kLogSizeKey (encodeLE 8 id)
        journal := s.journal ++ [(kLogSizeKey, encodeLE 8 id)]
        attempts := s.attempts + 1 } := by
  simp only [run, ContextStore.revertLog, show ¬ id ≥ s.logs.length by omega, if_false]
  rfl

theorem run_revertLog_rejected {id : Nat} (h : s.logs.length ≤ id) :
    (StoreOp.revertLog id).run s = s := by
  simp [run, ContextStore.revertLog, h]

/-- A push is accepted or rejected. -/
theorem pushLog_cases (log : Option LogEntry) (s : ContextStore) :
    (∃ e data, log = some e ∧ e.command = some data ∧ e.id = s.logs.length) ∨
      ∀ e ∈ log, e.command = none ∨ e.id ≠ s.logs.length := by
  cases log with
  | none => exact .inr (by simp)
  | some e =>
    by_cases hid : e.id = s.logs.length
    · cases hc : e.command with
      | none => exact .inr (by simp [hc])
      | some data => exact .inl ⟨e, data, rfl, hc, hid⟩
    · exact .inr (by simp [hid])

/-- A cut operation of one `Put` has executed it or not begun. -/
theorem crashDb_one {o : StoreOp} {p : String × Bytes}
    (h : (o.run { s with journal := [] }).journal = [p]) (k : Nat) :
    o.crashDb (k + 1) s = s.db.put p.1 p.2 := by
  simp [crashDb, h, LevelDB.putAll]

/-- An operation keeps the invariant, and stores what it should. -/
theorem holds_run (o : StoreOp) (h : s.db.Holds s) (ho : o.Typed s)
    (hl : s.logs.length < 2 ^ 64) :
    (o.run s).db.Holds (o.run s) ∧ (o.run s).stored = s.stored.apply o ∧
      (o.run s).logs.length < 2 ^ 64 := by
  cases o with
  | currentTerm term => exact ⟨(h.putTerm ho).congr rfl rfl rfl rfl, rfl, hl⟩
  | votedFor id => exact ⟨(h.putVotedFor ho).congr rfl rfl rfl rfl, rfl, hl⟩
  | voted b => exact ⟨(h.putVoted b).congr rfl rfl rfl rfl, rfl, hl⟩
  | pushLog log =>
    rcases pushLog_cases log s with ⟨e, data, rfl, hc, hid⟩ | hrej
    · obtain ⟨-, hterm, hsize⟩ := ho e rfl
      rw [run_pushLog hc hid]
      refine ⟨(h.push hid hc hterm (hsize hid)).congr rfl rfl rfl rfl, rfl, ?_⟩
      simp only [List.length_append, List.length_singleton]
      exact hsize hid
    · rw [run_pushLog_rejected hrej]
      exact ⟨h, rfl, hl⟩
  | revertLog id =>
    rcases Nat.lt_or_ge id s.logs.length with hlt | hge
    · rw [run_revertLog hlt]
      refine ⟨(h.putSize (Nat.le_of_lt hlt) ho).congr rfl rfl rfl rfl, rfl, ?_⟩
      simp only [List.length_take]
      omega
    · rw [run_revertLog_rejected hge]
      exact ⟨h, rfl, hl⟩

/-- **A cut operation is invisible or complete**: the database holds a context whose log is the
one before or the one after the operation. -/
theorem holds_crash (o : StoreOp) (k : Nat) (h : s.db.Holds s) (ho : o.Typed s)
    (hl : s.logs.length < 2 ^ 64) :
    ∃ s', (o.crashDb k s).Holds s' ∧ s'.stored = StoreEvent.stored s.stored (.crash o k) ∧
      (s'.logs = s.logs ∨ s'.logs = (o.run s).logs) ∧ s'.logs.length < 2 ^ 64 := by
  have hdone := holds_run o h ho hl
  cases o with
  | currentTerm term =>
    cases k with
    | zero => exact ⟨s, h, rfl, .inl rfl, hl⟩
    | succ k =>
      rw [crashDb_one rfl]
      exact ⟨_, h.putTerm ho, rfl, .inl rfl, hl⟩
  | votedFor id =>
    cases k with
    | zero => exact ⟨s, h, rfl, .inl rfl, hl⟩
    | succ k =>
      rw [crashDb_one rfl]
      exact ⟨_, h.putVotedFor ho, rfl, .inl rfl, hl⟩
  | voted b =>
    cases k with
    | zero => exact ⟨s, h, rfl, .inl rfl, hl⟩
    | succ k =>
      rw [crashDb_one rfl]
      exact ⟨_, h.putVoted b, rfl, .inl rfl, hl⟩
  | pushLog log =>
    have hst : s.stored = StoreEvent.stored s.stored (.crash (.pushLog log) k) := by
      simp [StoreEvent.stored, Stored.apply]
    rcases pushLog_cases log s with ⟨e, data, rfl, hc, hid⟩ | hrej
    · obtain ⟨-, hterm, hsize⟩ := ho e rfl
      have hsize := hsize hid
      unfold crashDb
      rw [run_pushLog (s := { s with journal := [] }) hc hid, run_pushLog hc hid]
      -- the first two `Put`s are past the end of the log; the third is the size
      match k with
      | 0 => exact ⟨s, h, hst, .inl rfl, hl⟩
      | 1 => exact ⟨s, h.putEntry (by omega) (.inl rfl) _, hst, .inl rfl, hl⟩
      | 2 =>
        exact ⟨s, (h.putEntry (by omega) (.inl rfl) _).putEntry (by omega) (.inr rfl) _, hst,
          .inl rfl, hl⟩
      | k + 3 =>
        refine ⟨{ s with logs := s.logs ++ [e] }, ?_, hst, .inr rfl, ?_⟩
        · simpa [LevelDB.putAll] using h.push hid hc hterm hsize
        · simp only [List.length_append, List.length_singleton]
          exact hsize
    · unfold crashDb
      rw [run_pushLog_rejected (s := { s with journal := [] }) hrej]
      exact ⟨s, by simpa [LevelDB.putAll] using h, hst, .inl rfl, hl⟩
  | revertLog id =>
    have hst : s.stored = StoreEvent.stored s.stored (.crash (.revertLog id) k) := by
      simp [StoreEvent.stored, Stored.apply]
    rcases Nat.lt_or_ge id s.logs.length with hlt | hge
    · cases k with
      | zero => exact ⟨s, h, hst, .inl rfl, hl⟩
      | succ k =>
        rw [crashDb_one (by rw [run_revertLog (s := { s with journal := [] }) hlt]; rfl),
          run_revertLog hlt]
        refine ⟨_, h.putSize (Nat.le_of_lt hlt) ho, hst, .inr rfl, ?_⟩
        simp only [List.length_take]
        omega
    · unfold crashDb
      rw [run_revertLog_rejected (s := { s with journal := [] }) hge]
      exact ⟨s, by simpa [LevelDB.putAll] using h, hst, .inl rfl, hl⟩

end StoreOp

/-! ## Histories -/

/-- The invariant of a history that has stored `a` last. -/
structure StoreInv (a : Stored) (s : ContextStore) : Prop where
  holds : s.db.Holds s
  stored : s.stored = a
  length : s.logs.length < 2 ^ 64

theorem StoreInv.event {a : Stored} {s : ContextStore} (h : StoreInv a s) (e : StoreEvent)
    (he : e.operation.Typed s) : StoreInv (StoreEvent.stored a e) (e.run s) := by
  obtain ⟨hh, rfl, hl⟩ := h
  cases e with
  | op o =>
    obtain ⟨h1, h2, h3⟩ := o.holds_run hh he hl
    exact ⟨h1, h2, h3⟩
  | crash o k =>
    obtain ⟨s', h1, h2, -, h4⟩ := o.holds_crash k hh he hl
    simp only [StoreEvent.run, reopen, ContextStore.create_of_holds h1]
    exact ⟨h1.congr rfl rfl rfl rfl, h2, h4⟩

theorem inv_run (es : List StoreEvent) (hes : TypedFrom (reopen .empty) es) :
    StoreInv (lastStored es) (runStore es) := by
  have key : ∀ (es : List StoreEvent) (a : Stored) (s : ContextStore), TypedFrom s es →
      StoreInv a s → StoreInv (es.foldl StoreEvent.stored a) (es.foldl (fun s e => e.run s) s) := by
    intro es
    induction es with
    | nil => exact fun a s _ h => h
    | cons e es ih => exact fun a s hes h => ih _ _ hes.2 (h.event e hes.1)
  exact key es {} _ hes ⟨ContextStore.holds_create_empty, rfl, by decide⟩

/-- **Crash-consistent persistence.** After any history, a database cut after any number of
`Put`s of an operation opens with exactly the term and the vote stored last, no votes counted,
and the log in memory before or after that operation; with no operation cut it opens with the
context in memory. -/
theorem reopen_after_crash (es : List StoreEvent) (hes : TypedFrom (reopen .empty) es)
    (o : StoreOp) (ho : o.Typed (runStore es)) (k : Nat) :
    ((reopen (o.crashDb k (runStore es))).stored = lastStored (es ++ [.crash o k]) ∧
      (reopen (o.crashDb k (runStore es))).voteReceived = 0 ∧
      ((reopen (o.crashDb k (runStore es))).logs = (runStore es).logs ∨
        (reopen (o.crashDb k (runStore es))).logs = (o.run (runStore es)).logs)) ∧
    ((reopen (runStore es).db).stored = lastStored es ∧
      (reopen (runStore es).db).stored = (runStore es).stored ∧
      (reopen (runStore es).db).voteReceived = 0 ∧
      (reopen (runStore es).db).logs = (runStore es).logs) := by
  obtain ⟨hh, hst, hl⟩ := inv_run es hes
  obtain ⟨s', h1, h2, h3, -⟩ := o.holds_crash k hh ho hl
  constructor
  · simp only [reopen, ContextStore.create_of_holds h1]
    refine ⟨?_, trivial, h3⟩
    rw [lastStored, List.foldl_append]
    exact h2.trans (by rw [hst]; rfl)
  · simp only [reopen, ContextStore.create_of_holds hh]
    exact ⟨hst, rfl, trivial, trivial⟩

/-- A push over a stale entry, cut after two of its three `Put`s: the log is the one before, which
is empty. -/
theorem reopen_after_cut_push :
    let es : List StoreEvent := [.op (.currentTerm 3), .op (.pushLog (some ⟨0, 3, some [0, 7]⟩)),
      .op (.revertLog 0)]
    let o : StoreOp := .pushLog (some ⟨0, 4, some []⟩)
    (reopen (o.crashDb 2 (runStore es))).stored = ⟨3, 0, false⟩ ∧
      (reopen (o.crashDb 2 (runStore es))).logs = [] ∧
      TypedFrom (reopen .empty) es ∧ o.Typed (runStore es) := by
  intro es o
  have hes : TypedFrom (reopen .empty) es := by decide +kernel
  have ho : o.Typed (runStore es) := by decide +kernel
  exact ⟨(reopen_after_crash es hes o ho 2).1.1, by decide +kernel, hes, ho⟩

end Foros

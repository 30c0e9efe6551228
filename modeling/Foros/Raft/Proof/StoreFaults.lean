import Foros.Lib.Run
import Foros.Raft.Proof.Recovery

/-!
# Log operations when `Put`s fail

`pushLog_outcome` says everything `push_log` can do, by the first of its three `Put`s that fails.
An operation on the log is all or nothing exactly when it is `Sound`
(`log_operations_all_or_nothing`): `revert_log` does not look at the result of its `Put`, and the
`Put`s of a push that fails half-way are invisible only where the stored size does not cover them.
-/

namespace Foros

open Lib

namespace ContextStore

variable {ok : Nat → Bool} {s : ContextStore}

/-! ## Outcomes -/

theorem put_of_ok (h : ok s.attempts = true) (key : String) (value : Bytes) :
    s.put ok key value = (true, { s with
      db := s.db.put key value
      journal := s.journal ++ [(key, value)]
      attempts := s.attempts + 1 }) := if_pos h

theorem put_of_fail (h : ok s.attempts = false) (key : String) (value : Bytes) :
    s.put ok key value = (false, { s with attempts := s.attempts + 1 }) :=
  if_neg (by simp [h])

/-- The entry goes on at the end of the log and has a command. -/
def Fits (s : ContextStore) (log : LogEntry) (data : Bytes) : Prop :=
  log.command = some data ∧ log.id = s.logs.length

/-- What `push_log` returns, and the log and the database it leaves. -/
inductive PushOutcome (ok : Nat → Bool) (s : ContextStore) (log : Option LogEntry) :
    Bool → List LogEntry → LevelDB → Prop
  | rejected : (∀ e ∈ log, e.command = none ∨ e.id ≠ s.logs.length) →
      PushOutcome ok s log false s.logs s.db
  | termFailed {e : LogEntry} {data : Bytes} : log = some e → s.Fits e data →
      ok s.attempts = false → PushOutcome ok s log false s.logs s.db
  | dataFailed {e : LogEntry} {data : Bytes} : log = some e → s.Fits e data →
      ok s.attempts = true → ok (s.attempts + 1) = false →
      PushOutcome ok s log false s.logs (s.db.put (getLogTermKey e.id) (encodeLE 8 e.term))
  | sizeFailed {e : LogEntry} {data : Bytes} : log = some e → s.Fits e data →
      ok s.attempts = true → ok (s.attempts + 1) = true → ok (s.attempts + 2) = false →
      PushOutcome ok s log false s.logs
        ((s.db.put (getLogTermKey e.id) (encodeLE 8 e.term)).put (getLogDataKey e.id) data)
  | stored {e : LogEntry} {data : Bytes} : log = some e → s.Fits e data →
      ok s.attempts = true → ok (s.attempts + 1) = true → ok (s.attempts + 2) = true →
      PushOutcome ok s log true (s.logs ++ [e])
        (((s.db.put (getLogTermKey e.id) (encodeLE 8 e.term)).put (getLogDataKey e.id) data).put
          kLogSizeKey (encodeLE 8 (s.logs.length + 1)))

/-- **What `push_log` does**, whatever `Put`s fail. -/
theorem pushLog_outcome (ok : Nat → Bool) (log : Option LogEntry) (s : ContextStore) :
    PushOutcome ok s log (s.pushLog ok log).1 (s.pushLog ok log).2.logs
      (s.pushLog ok log).2.db := by
  rcases StoreOp.pushLog_cases log s with ⟨e, data, rfl, hc, hid⟩ | hrej
  · have hfits : s.Fits e data := ⟨hc, hid⟩
    simp only [pushLog, hc, hid, ne_eq, not_true_eq_false, if_false, storeLogTerm, storeLogData,
      storeLogsSize]
    cases h0 : ok s.attempts with
    | false =>
      rw [put_of_fail h0]
      exact .termFailed rfl hfits h0
    | true =>
      rw [put_of_ok h0]
      cases h1 : ok (s.attempts + 1) with
      | false =>
        rw [put_of_fail h1, ← hid]
        exact .dataFailed rfl hfits h0 h1
      | true =>
        rw [put_of_ok h1]
        cases h2 : ok (s.attempts + 2) with
        | false =>
          rw [put_of_fail h2, ← hid]
          exact .sizeFailed rfl hfits h0 h1 h2
        | true =>
          rw [put_of_ok h2, ← hid]
          have hstored : PushOutcome ok s (some e) true _ _ := .stored rfl hfits h0 h1 h2
          rw [← hid] at hstored
          exact hstored
  · have hsame : s.pushLog ok log = (false, s) := by
      unfold pushLog
      split
      · rfl
      · split
        · rfl
        · rename_i e _ data hc
          rcases hrej e rfl with hnone | hid
          · rw [hc] at hnone
            cases hnone
          · exact if_pos hid
    rw [hsame]
    exact .rejected hrej

end ContextStore

/-! ## The database after half an operation -/

namespace LevelDB.Loads

variable {db db' : LevelDB} {logs : List LogEntry}

/-- The keys of the entries that are loaded are not those of the entry past them. -/
theorem loadLog_put_past {i j : Nat} {key : String} (hj : j < i)
    (hkey : key = getLogTermKey i ∨ key = getLogDataKey i) (value : Bytes) :
    (db.put key value).loadLog j = db.loadLog j := by
  rcases hkey with rfl | rfl
  · refine loadLog_put_ne (fun he => ?_) (fun he => getLogTermKey_ne_data i j he.symm) value
    exact Nat.ne_of_lt hj (getLogTermKey_inj he)
  · refine loadLog_put_ne (getLogTermKey_ne_data j i) (fun he => ?_) value
    exact Nat.ne_of_lt hj (getLogDataKey_inj he)

theorem loadLogsSize_put_entry {i : Nat} {key : String}
    (hkey : key = getLogTermKey i ∨ key = getLogDataKey i) (value : Bytes) :
    (db.put key value).loadLogsSize = db.loadLogsSize := by
  apply loadWord_put_ne
  rcases hkey with rfl | rfl
  · exact (contextKey_logSize i).1
  · exact (contextKey_logSize i).2

/-- A term past the end of the log is invisible where the stored size does not cover it. -/
theorem half_written (h : db.Loads logs) (hsize : db'.loadLogsSize = db.loadLogsSize)
    (hbelow : ∀ i < logs.length, db'.loadLog i = db.loadLog i)
    (hread : db'.TermReadable logs.length) :
    db'.Loads logs ↔ db.loadLogsSize ≤ logs.length := by
  constructor
  · intro h'
    by_contra hlt
    exact h'.not_termReadable (hsize ▸ Nat.lt_of_not_le hlt) hread
  · intro hle
    exact ⟨hsize ▸ h.le_size, fun i hi => (hbelow i hi).trans (h.entries i hi),
      fun hlt => absurd hlt (by omega)⟩

/-- The first `Put` of a push has succeeded. -/
theorem put_term (h : db.Loads logs) (term : Nat) :
    (db.put (getLogTermKey logs.length) (encodeLE 8 term)).Loads logs ↔
      db.loadLogsSize ≤ logs.length :=
  h.half_written (loadLogsSize_put_entry (.inl rfl) _)
    (fun _ hi => loadLog_put_past hi (.inl rfl) _)
    ⟨_, get_put_same .., Nat.le_of_eq (length_encodeLE 8 term).symm⟩

/-- The first two `Put`s of a push have succeeded. -/
theorem put_data (h : db.Loads logs) (term : Nat) (data : Bytes) :
    ((db.put (getLogTermKey logs.length) (encodeLE 8 term)).put (getLogDataKey logs.length)
        data).Loads logs ↔ db.loadLogsSize ≤ logs.length := by
  refine h.half_written ?_ (fun i hi => ?_) ⟨encodeLE 8 term, ?_, ?_⟩
  · rw [loadLogsSize_put_entry (.inr rfl), loadLogsSize_put_entry (.inl rfl)]
  · rw [loadLog_put_past hi (.inr rfl), loadLog_put_past hi (.inl rfl)]
  · rw [get_put_ne (getLogTermKey_ne_data _ _), get_put_same]
  · exact Nat.le_of_eq (length_encodeLE 8 term).symm

/-- All three have succeeded. -/
theorem put_size (h : db.Loads logs) {e : LogEntry} {data : Bytes} (hc : e.command = some data)
    (hid : e.id = logs.length) (ht : e.term < 2 ^ 64) (hlen : logs.length + 1 < 2 ^ 64) :
    (((db.put (getLogTermKey e.id) (encodeLE 8 e.term)).put (getLogDataKey e.id) data).put
      kLogSizeKey (encodeLE 8 (logs.length + 1))).Loads (logs ++ [e]) := by
  obtain ⟨id, term, command⟩ := e
  simp only at hc hid ht ⊢
  subst hc hid
  have hsize : ∀ db₁ : LevelDB,
      (db₁.put kLogSizeKey (encodeLE 8 (logs.length + 1))).loadLogsSize = logs.length + 1 :=
    fun _ => loadWord_put_same _ (by omega)
  refine ⟨by rw [hsize, List.length_append]; rfl, fun i hi => ?_, fun hlt => ?_⟩
  · rw [loadLog_put_context contextKey_logSize]
    rw [List.length_append, List.length_singleton] at hi
    rcases Nat.lt_or_eq_of_le (Nat.le_of_lt_succ hi) with hlt | rfl
    · rw [loadLog_put_past hlt (.inr rfl), loadLog_put_past hlt (.inl rfl), h.entries i hlt,
        List.getElem?_append_left hlt]
    · rw [loadLog_put_entry data (by omega), List.getElem?_concat_length]
  · rw [hsize, List.length_append] at hlt
    exact absurd hlt (Nat.lt_irrefl _)

theorem truncate (h : db.Loads logs) {i : Nat} (hi : i ≤ logs.length) :
    (db.put kLogSizeKey (encodeLE 8 i)).Loads (logs.take i) := by
  have hbound := db.loadLogsSize_lt
  have hle := h.le_size
  have hsize : (db.put kLogSizeKey (encodeLE 8 i)).loadLogsSize = i :=
    loadWord_put_same _ (by omega)
  have hlen : (logs.take i).length = i := by simp [hi]
  refine ⟨by omega, fun j hj => ?_, fun hlt => by omega⟩
  rw [hlen] at hj
  rw [loadLog_put_context contextKey_logSize, h.entries j (Nat.lt_of_lt_of_le hj hi),
    List.getElem?_take, if_pos hj]

end LevelDB.Loads

/-! ## Agreement of memory and disk -/

/-- Opening the database again gives back the log in memory. -/
def ContextStore.Agrees (s : ContextStore) : Prop := (reopen s.db).logs = s.logs

theorem reopen_logs {db : LevelDB} {logs : List LogEntry} :
    (reopen db).logs = logs ↔ db.Loads logs := by
  have hloads : db.Loads (reopen db).logs := by
    unfold reopen ContextStore.create
    refine (ContextStore.initLogs_loads _ ?_).1
    rfl
  exact ⟨fun h => h ▸ hloads, fun h => hloads.unique h⟩

/-- The operations on the log. -/
inductive LogOp
  | pushLog (log : Option LogEntry)
  | revertLog (id : Nat)
  deriving DecidableEq, Repr

namespace LogOp

def run (ok : Nat → Bool) (o : LogOp) (s : ContextStore) : Bool × ContextStore :=
  match o with
  | .pushLog log => s.pushLog ok log
  | .revertLog id => s.revertLog ok id

/-- The arguments are values of their types, and so is the size of the log where a push goes on at
its end. -/
def Typed (s : ContextStore) : LogOp → Prop
  | .pushLog log => ∀ e ∈ log, e.id < 2 ^ 64 ∧ e.term < 2 ^ 64 ∧
      (e.id = s.logs.length → s.logs.length + 1 < 2 ^ 64)
  | .revertLog id => id < 2 ^ 64

instance (s : ContextStore) : (o : LogOp) → Decidable (o.Typed s)
  | .pushLog log => inferInstanceAs (Decidable (∀ e ∈ log, _))
  | .revertLog _ => inferInstanceAs (Decidable (_ < _))

/-- The log after an operation that succeeds. -/
def apply (logs : List LogEntry) : LogOp → List LogEntry
  | .pushLog log => logs ++ log.toList
  | .revertLog id => logs.take id

/-- An operation that succeeds leaves the new log in memory and on disk; one that fails leaves
both as they are. -/
def AllOrNothing (ok : Nat → Bool) (o : LogOp) (s : ContextStore) : Prop :=
  if (o.run ok s).1 then
    (o.run ok s).2.logs = o.apply s.logs ∧ (reopen (o.run ok s).2.db).logs = o.apply s.logs
  else (o.run ok s).2.logs = s.logs ∧ (reopen (o.run ok s).2.db).logs = (reopen s.db).logs

instance (ok : Nat → Bool) (o : LogOp) (s : ContextStore) : Decidable (o.AllOrNothing ok s) := by
  unfold AllOrNothing; infer_instance

/-- A push whose entry goes on at the end of the log has its first `Put` fail or all three succeed,
or the stored size does not cover the entry; a truncation has its `Put` succeed. -/
def Sound (ok : Nat → Bool) (o : LogOp) (s : ContextStore) : Prop :=
  match o with
  | .pushLog log => ∀ e ∈ log, e.command.isSome → e.id = s.logs.length →
      ok s.attempts = false ∨ (ok (s.attempts + 1) = true ∧ ok (s.attempts + 2) = true) ∨
        s.db.loadLogsSize ≤ s.logs.length
  | .revertLog id => id < s.logs.length → ok s.attempts = true

variable {ok : Nat → Bool} {s : ContextStore}

/-- Memory shows what an operation returns. -/
theorem run_logs (ok : Nat → Bool) (o : LogOp) (s : ContextStore) :
    (o.run ok s).2.logs = if (o.run ok s).1 then o.apply s.logs else s.logs := by
  cases o with
  | pushLog log =>
    have hout := s.pushLog_outcome ok log
    change (s.pushLog ok log).2.logs =
      if (s.pushLog ok log).1 = true then s.logs ++ log.toList else s.logs
    generalize (s.pushLog ok log).2.logs = logs at hout ⊢
    generalize (s.pushLog ok log).2.db = db at hout
    cases hr : (s.pushLog ok log).1 with
    | true =>
      rw [hr] at hout
      cases hout with
      | stored hlog _ _ _ _ =>
        rw [hlog]
        rfl
    | false =>
      rw [hr] at hout
      cases hout <;> rfl
  | revertLog id =>
    simp only [run, ContextStore.revertLog]
    split
    · rfl
    · simp only [apply, if_true, ContextStore.storeLogsSize, ContextStore.put]
      split <;> rfl

/-- **Memory and disk agree after an operation exactly when it is sound.** -/
theorem agrees_run {o : LogOp} (hs : s.Agrees) (ho : o.Typed s) :
    (o.run ok s).2.Agrees ↔ o.Sound ok s := by
  have hloads : s.db.Loads s.logs := reopen_logs.1 hs
  unfold ContextStore.Agrees
  rw [reopen_logs]
  cases o with
  | pushLog log =>
    have hout := s.pushLog_outcome ok log
    simp only [run, Sound]
    generalize (s.pushLog ok log).1 = r at hout
    generalize (s.pushLog ok log).2.logs = logs at hout ⊢
    generalize (s.pushLog ok log).2.db = db at hout ⊢
    cases hout with
    | rejected hrej =>
      refine iff_of_true hloads fun e he hc hid => ?_
      rcases hrej e he with hnone | hne
      · rw [hnone] at hc
        cases hc
      · exact absurd hid hne
    | termFailed _ _ h0 => exact iff_of_true hloads fun _ _ _ _ => .inl h0
    | @dataFailed e data hlog hfits h0 h1 =>
      subst hlog
      rw [hfits.2, hloads.put_term]
      simp [h0, h1, hfits.1, hfits.2]
    | @sizeFailed e data hlog hfits h0 h1 h2 =>
      subst hlog
      rw [hfits.2, hloads.put_data]
      simp [h0, h2, hfits.1, hfits.2]
    | @stored e data hlog hfits h0 h1 h2 =>
      subst hlog
      obtain ⟨-, hterm, hsize⟩ := ho e rfl
      exact iff_of_true (hloads.put_size hfits.1 hfits.2 hterm (hsize hfits.2))
        fun _ _ _ _ => .inr (.inl ⟨h1, h2⟩)
  | revertLog id =>
    simp only [run, Sound, ContextStore.revertLog]
    split
    · rename_i hge
      exact iff_of_true hloads fun hlt => absurd hlt (Nat.not_lt_of_le hge)
    · rename_i hlt
      have hlt : id < s.logs.length := Nat.lt_of_not_le hlt
      simp only [hlt, forall_const, ContextStore.storeLogsSize]
      cases h0 : ok s.attempts with
      | true =>
        rw [ContextStore.put_of_ok (s := { s with logs := s.logs.take id }) h0]
        exact iff_of_true (hloads.truncate (Nat.le_of_lt hlt)) rfl
      | false =>
        rw [ContextStore.put_of_fail (s := { s with logs := s.logs.take id }) h0]
        refine iff_of_false (fun hcut => ?_) (by simp)
        have hlen := congrArg List.length (hloads.unique hcut)
        simp only [List.length_take] at hlen
        omega

/-- An operation is all or nothing exactly when memory and disk agree after it. -/
theorem allOrNothing_iff (hs : s.Agrees) (o : LogOp) :
    o.AllOrNothing ok s ↔ (o.run ok s).2.Agrees := by
  have hlogs := o.run_logs ok s
  unfold AllOrNothing ContextStore.Agrees
  split
  · rename_i hr
    rw [if_pos hr] at hlogs
    rw [hlogs]
    exact and_iff_right rfl
  · rename_i hr
    rw [if_neg hr] at hlogs
    rw [hlogs, hs]
    exact and_iff_right rfl

end LogOp

/-! ## Sequences of operations -/

/-- A store on which operations run one after the other, each with its own failing `Put`s. -/
def ContextStore.logSystem (s : ContextStore) :
    Lib.System ContextStore ((Nat → Bool) × LogOp) where
  init := s
  step s a := some (a.2.run a.1 s).2

/-- **When log operations are all or nothing.** In a store where memory and disk agree, one
operation is all or nothing exactly when it is sound; and in every sequence of operations memory
and disk agree at every moment exactly when all of them are sound. -/
theorem log_operations_all_or_nothing {s : ContextStore} (hs : s.Agrees) :
    (∀ (ok : Nat → Bool) (o : LogOp), o.Typed s → (o.AllOrNothing ok s ↔ o.Sound ok s)) ∧
    ∀ h, s.logSystem.Run (fun s' a => a.2.Typed s') h →
      ((∀ s' ∈ h, s'.Agrees) ↔
        s.logSystem.Run (fun s' a => a.2.Typed s' ∧ a.2.Sound a.1 s') h) := by
  constructor
  · intro ok o ho
    rw [LogOp.allOrNothing_iff hs, LogOp.agrees_run hs ho]
  · intro h hr
    apply hr.forall_mem_iff hs
    intro s' a s'' _ ho hstep hagrees
    cases hstep
    exact LogOp.agrees_run hagrees ho

/-- The second `Put` of a push fails: its term is on disk, and neither log shows it. -/
theorem log_operations_all_or_nothing_half_push :
    (LogOp.pushLog (some ⟨0, 1, some [7]⟩)).AllOrNothing (fun n => n ≠ 1) (reopen .empty) := by
  have hagrees : (reopen .empty).Agrees := by
    unfold ContextStore.Agrees
    decide +kernel
  refine ((log_operations_all_or_nothing hagrees).1 _ _ (by decide +kernel)).2 ?_
  exact fun _ _ _ _ => .inr (.inr (by decide +kernel))

/-- The `Put` of a truncation fails: the entry is gone from memory and back after a restart. -/
theorem log_operations_half_done :
    ¬ ∀ (ok : Nat → Bool) (o : LogOp) (s : ContextStore), s.Agrees → o.Typed s →
      o.AllOrNothing ok s := by
  intro h
  have hagrees : (runStore [.op (.pushLog (some ⟨0, 1, some [7]⟩))]).Agrees := by
    unfold ContextStore.Agrees
    decide +kernel
  have hall := h (fun _ => false) (.revertLog 0)
    (runStore [.op (.pushLog (some ⟨0, 1, some [7]⟩))]) hagrees (by simp [LogOp.Typed])
  revert hall
  decide +kernel

end Foros

import Foros.Raft.Proof.StoreCrash
import Mathlib.Order.Bounds.Basic

/-!
# Recovery

What `init_logs` makes of a database, whatever it holds. `db.Loads logs`: the entries of `logs` are
what `load_log` reads from index 0 on, and they end at the stored size or at the first entry that
`load_log` does not read. The loop produces that log and no other (`initLogs_loads`,
`Loads.unique`). It is the well-formed prefix of the database exactly when no term that is read
lacks its data (`recovery_well_formed_prefix`): `load_log` does not look at the status of its
second `Get`.
-/

namespace Foros

open Lib

namespace LevelDB

/-! ## Reading entries -/

/-- The term key of an entry is present with at least eight bytes. -/
def TermReadable (db : LevelDB) (i : Nat) : Prop :=
  ∃ value, db.get (getLogTermKey i) = some value ∧ 8 ≤ value.length

/-- The data key of an entry is present. -/
def DataPresent (db : LevelDB) (i : Nat) : Prop := ∃ value, db.get (getLogDataKey i) = some value

def WellFormed (db : LevelDB) (i : Nat) : Prop := db.TermReadable i ∧ db.DataPresent i

variable {db : LevelDB}

theorem loadLogsSize_lt (db : LevelDB) : db.loadLogsSize < 2 ^ 64 := by
  unfold loadLogsSize loadWord
  split
  · decide
  split
  · decide
  · rename_i value _ hlen
    have hlt := decodeLE_lt value
    rw [not_not.1 hlen] at hlt
    omega

theorem loadLog_eq_none {i : Nat} : db.loadLog i = none ↔ ¬ db.TermReadable i := by
  unfold loadLog TermReadable
  cases db.get (getLogTermKey i) with
  | none => simp
  | some value =>
    simp only [Option.some.injEq, exists_eq_left', Nat.not_le]
    split
    · rename_i hlt
      exact iff_of_true rfl hlt
    · rename_i hge
      exact iff_of_false (by simp) hge

theorem TermReadable.of_loadLog {i : Nat} {log : LogEntry} (h : db.loadLog i = some log) :
    db.TermReadable i := by
  by_contra hn
  rw [loadLog_eq_none.2 hn] at h
  cases h

/-- A well-formed entry is read as it was stored. -/
theorem loadLog_of_get {i : Nat} {term data : Bytes} (ht : db.get (getLogTermKey i) = some term)
    (hlen : 8 ≤ term.length) (hd : db.get (getLogDataKey i) = some data) :
    db.loadLog i = some ⟨i, decodeLE (term.take 8), some data⟩ := by
  unfold loadLog
  rw [ht, hd]
  exact if_neg (Nat.not_lt_of_le hlen)

/-! ## The log of a database -/

/-- The entries that `load_log` reads one after the other, up to the stored size or to the first
one it does not read. -/
structure Loads (db : LevelDB) (logs : List LogEntry) : Prop where
  le_size : logs.length ≤ db.loadLogsSize
  entries : ∀ i < logs.length, db.loadLog i = logs[i]?
  stops : logs.length < db.loadLogsSize → db.loadLog logs.length = none

/-- A log that is read is not a part of another one. -/
theorem Loads.length_le {logs logs' : List LogEntry} (h : db.Loads logs) (h' : db.Loads logs') :
    logs'.length ≤ logs.length := by
  by_contra hlt
  have hlt : logs.length < logs'.length := Nat.lt_of_not_le hlt
  have hread := h'.entries _ hlt
  rw [h.stops (Nat.lt_of_lt_of_le hlt h'.le_size), List.getElem?_eq_getElem hlt] at hread
  cases hread

theorem Loads.unique {logs logs' : List LogEntry} (h : db.Loads logs) (h' : db.Loads logs') :
    logs = logs' := by
  have hlen : logs.length = logs'.length := Nat.le_antisymm (h'.length_le h) (h.length_le h')
  apply List.ext_getElem? fun i => ?_
  rcases Nat.lt_or_ge i logs.length with hi | hi
  · rw [← h.entries i hi, h'.entries i (hlen ▸ hi)]
  · rw [List.getElem?_eq_none hi, List.getElem?_eq_none (hlen ▸ hi)]

end LevelDB

namespace ContextStore

variable {ok : Nat → Bool}

/-- The loop of `init_logs` from index `i` on, when the entries below it have been read. -/
theorem initLogsFrom_loads {db : LevelDB} : ∀ (fuel i : Nat) (s : ContextStore), s.db = db →
    s.logs.length = i → (∀ j < i, db.loadLog j = s.logs[j]?) → i ≤ db.loadLogsSize →
    db.loadLogsSize ≤ i + fuel →
    db.Loads (initLogsFrom ok fuel i s).logs ∧
      ((initLogsFrom ok fuel i s).db.loadLogsSize = (initLogsFrom ok fuel i s).logs.length ↔
        ((initLogsFrom ok fuel i s).logs.length < db.loadLogsSize → ok s.attempts = true))
  | 0, i, s, hdb, hi, hread, hle, hfuel => by
    subst hdb
    change s.db.Loads s.logs ∧
      (s.db.loadLogsSize = s.logs.length ↔ (s.logs.length < s.db.loadLogsSize → _))
    rw [hi]
    exact ⟨⟨hi ▸ hle, hi ▸ hread, fun hlt => by omega⟩,
      iff_of_true (by omega) fun hlt => by omega⟩
  | fuel + 1, i, s, hdb, hi, hread, hle, hfuel => by
    subst hdb
    rw [initLogsFrom_succ]
    by_cases hlt : i < s.db.loadLogsSize
    · rw [if_pos hlt]
      cases hload : s.db.loadLog i with
      | none =>
        -- the loop stops here and stores the smaller size
        have hlogs : (s.storeLogsSize ok i).2.logs = s.logs := by
          unfold storeLogsSize put
          split <;> rfl
        have hsize : (s.storeLogsSize ok i).2.db =
            if ok s.attempts then s.db.put kLogSizeKey (encodeLE 8 i) else s.db := by
          unfold storeLogsSize put
          split <;> rfl
        simp only [hlogs, hsize, hi]
        refine ⟨⟨hi ▸ hle, hi ▸ hread, fun _ => hi ▸ hload⟩, ?_⟩
        have hbound := s.db.loadLogsSize_lt
        split
        · rename_i hok
          rw [LevelDB.loadLogsSize, LevelDB.loadWord_put_same _ (by omega)]
          exact iff_of_true rfl fun _ => hok
        · rename_i hok
          exact iff_of_false (by omega) fun h => hok (h hlt)
      | some log =>
        have hnext : ∀ j < i + 1, s.db.loadLog j = (s.logs ++ [log])[j]? := by
          intro j hj
          rcases Nat.lt_or_ge j i with hji | hji
          · rw [List.getElem?_append_left (by omega)]
            exact hread j hji
          · have heq : j = s.logs.length := by omega
            rw [heq, List.getElem?_concat_length, hi, hload]
        exact initLogsFrom_loads fuel (i + 1) { s with logs := s.logs ++ [log] } rfl
          (by simp [hi]) hnext hlt (by omega)
    · rw [if_neg hlt, hi]
      exact ⟨⟨hi ▸ hle, hi ▸ hread, fun h => absurd (hi ▸ h) hlt⟩,
        iff_of_true (by omega) fun h => absurd h hlt⟩

/-- **What `init_logs` reads**, and when the stored size is the size of the log afterwards. -/
theorem initLogs_loads (ok : Nat → Bool) {db : LevelDB} {s : ContextStore} (hdb : s.db = db) :
    db.Loads (initLogs ok s).logs ∧
      ((initLogs ok s).db.loadLogsSize = (initLogs ok s).logs.length ↔
        ((initLogs ok s).logs.length < db.loadLogsSize → ok s.attempts = true)) := by
  subst hdb
  exact initLogsFrom_loads s.db.loadLogsSize 0 { s with logs := [] } rfl rfl
    (fun _ hj => absurd hj (Nat.not_lt_zero _)) (Nat.zero_le _) (by simp)

/-- More fuel than the stored size is not used. -/
theorem initLogs_fuel (s : ContextStore) :
    ∀ extra : Nat, initLogsFrom ok (s.db.loadLogsSize + extra) 0 { s with logs := [] } =
      initLogs ok s
  | 0 => rfl
  | extra + 1 => by
    rw [← Nat.add_assoc, initLogsFrom_stop _ _ _ (by simp)]
    exact initLogs_fuel s extra

end ContextStore

/-! ## The well-formed prefix -/

/-- The log is the longest well-formed prefix below the stored size, read as it was stored, and its
length is the stored size afterwards. -/
structure LevelDB.Recovered (db : LevelDB) (s : ContextStore) : Prop where
  greatest : IsGreatest {m | m ≤ db.loadLogsSize ∧ ∀ i < m, db.WellFormed i} s.logs.length
  entries : ∀ i < s.logs.length, ∃ term data, db.get (getLogTermKey i) = some term ∧
    db.get (getLogDataKey i) = some data ∧
    s.logs[i]? = some ⟨i, decodeLE (term.take 8), some data⟩
  size : s.db.loadLogsSize = s.logs.length

/-- Below the stored size, the first entry that is not well formed is one whose term is not read:
no term is read without its data. -/
def LevelDB.NoLoneTerm (db : LevelDB) : Prop :=
  ∀ i < db.loadLogsSize, (∀ j < i, db.WellFormed j) → db.TermReadable i → db.DataPresent i

/-- The well-formed prefix ends below the stored size at a term that is not read. -/
def LevelDB.EndsEarly (db : LevelDB) : Prop :=
  ∃ i < db.loadLogsSize, (∀ j < i, db.WellFormed j) ∧ ¬ db.TermReadable i

namespace LevelDB.Loads

variable {db : LevelDB} {logs : List LogEntry}

theorem termReadable (h : db.Loads logs) {i : Nat} (hi : i < logs.length) : db.TermReadable i :=
  .of_loadLog ((h.entries i hi).trans (List.getElem?_eq_getElem hi))

/-- An entry below the stored size whose predecessors are well formed stands in the log, or right
after it. -/
theorem le_length (h : db.Loads logs) {i : Nat} (hi : i < db.loadLogsSize)
    (hpre : ∀ j < i, db.WellFormed j) : i ≤ logs.length := by
  by_contra hlt
  have hlt : logs.length < i := Nat.lt_of_not_le hlt
  exact loadLog_eq_none.1 (h.stops (Nat.lt_trans hlt hi)) (hpre _ hlt).1

theorem not_termReadable (h : db.Loads logs) (hlt : logs.length < db.loadLogsSize) :
    ¬ db.TermReadable logs.length := loadLog_eq_none.1 (h.stops hlt)

/-- Where no term lacks its data, what is read is well formed. -/
theorem wellFormed (h : db.Loads logs) (hlone : db.NoLoneTerm) :
    ∀ i < logs.length, db.WellFormed i := by
  intro i
  induction i using Nat.strong_induction_on with
  | _ i ih =>
    intro hi
    have hterm := h.termReadable hi
    exact ⟨hterm, hlone i (Nat.lt_of_lt_of_le hi h.le_size)
      (fun j hj => ih j hj (Nat.lt_trans hj hi)) hterm⟩

end LevelDB.Loads

/-- **When recovery loads exactly the well-formed prefix.** For every database: the loop of
`init_logs` ends by itself, and it yields the well-formed prefix exactly when no term is read
without its data and the `Put` of a smaller size, where there is one, succeeds. -/
theorem recovery_well_formed_prefix (ok : Nat → Bool) (s : ContextStore) :
    (∀ extra, ContextStore.initLogsFrom ok (s.db.loadLogsSize + extra) 0 { s with logs := [] } =
      ContextStore.initLogs ok s) ∧
    (s.db.Recovered (ContextStore.initLogs ok s) ↔
      s.db.NoLoneTerm ∧ (s.db.EndsEarly → ok s.attempts = true)) := by
  refine ⟨ContextStore.initLogs_fuel s, ?_⟩
  obtain ⟨hloads, hsize⟩ := ContextStore.initLogs_loads ok (s := s) rfl
  generalize ContextStore.initLogs ok s = r at hloads hsize
  constructor
  · intro h
    have hwell := h.greatest.1.2
    constructor
    · intro i hi hpre hterm
      rcases Nat.lt_or_eq_of_le (hloads.le_length hi hpre) with hlt | rfl
      · exact (hwell i hlt).2
      · exact absurd hterm (hloads.not_termReadable hi)
    · rintro ⟨i, hi, hpre, hterm⟩
      have hle : r.logs.length ≤ i := by
        by_contra hlt
        exact hterm (hloads.termReadable (Nat.lt_of_not_le hlt))
      exact hsize.1 h.size (Nat.lt_of_le_of_lt hle hi)
  · rintro ⟨hlone, hput⟩
    have hwell := hloads.wellFormed hlone
    refine ⟨⟨⟨hloads.le_size, hwell⟩, ?_⟩, fun i hi => ?_, hsize.2 fun hlt => ?_⟩
    · -- no longer prefix is well formed
      rintro m ⟨hm, hpre⟩
      by_contra hlt
      have hlt : r.logs.length < m := Nat.lt_of_not_le hlt
      exact hloads.not_termReadable (Nat.lt_of_lt_of_le hlt hm) (hpre _ hlt).1
    · obtain ⟨⟨term, ht, hlen⟩, data, hd⟩ := hwell i hi
      exact ⟨term, data, ht, hd,
        (hloads.entries i hi).symm.trans (LevelDB.loadLog_of_get ht hlen hd)⟩
    · exact hput ⟨_, hlt, hwell, hloads.not_termReadable hlt⟩

/-- The term of the only entry is stored and its data lost: its command is read as the eight bytes
of the term. -/
theorem recovery_invents_command :
    ¬ ∀ s : ContextStore, s.db.Recovered (ContextStore.initLogs (fun _ => true) s) := by
  intro h
  have hentries := (h { reopen .empty with
    db := (LevelDB.empty.put kLogSizeKey (encodeLE 8 1)).put (getLogTermKey 0)
      (encodeLE 8 5) }).entries 0 (by decide +kernel)
  obtain ⟨term, data, -, hd, -⟩ := hentries
  have hlost : ((LevelDB.empty.put kLogSizeKey (encodeLE 8 1)).put (getLogTermKey 0)
      (encodeLE 8 5)).get (getLogDataKey 0) = none := by decide +kernel
  rw [hlost] at hd
  cases hd

end Foros

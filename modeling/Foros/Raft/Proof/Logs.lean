import Foros.Raft.Core
import Mathlib.Data.List.Infix

/-!
# Logs

`Indexed logs`: the id of every entry is its position. `append_outcome` says everything a request
can do to such a log: nothing, truncate it silently at the predecessor, confirm its last entry, or
put the entry at its place after the entries below it.
-/

namespace Foros.Logs

theorem push_accepted {l : LogEntry} {L : List LogEntry} {data : Bytes}
    (hc : l.command = some data) (hid : l.id = L.length) : push l L = (true, L ++ [l]) := by
  simp [push, hc, hid]

theorem push_rejected {l : LogEntry} {L : List LogEntry}
    (h : l.command = none ∨ l.id ≠ L.length) : push l L = (false, L) := by
  have : ¬ (l.command.isSome ∧ l.id = L.length) := by
    rintro ⟨hc, hid⟩
    rcases h with h | h
    · simp [h] at hc
    · exact h hid
  simp only [push, this, if_false]

/-- A push is accepted or rejected. -/
theorem push_cases (log : LogEntry) (logs : List LogEntry) :
    (∃ data, log.command = some data ∧ log.id = logs.length) ∨
      (log.command = none ∨ log.id ≠ logs.length) := by
  cases hc : log.command with
  | none => exact .inr (.inl rfl)
  | some data =>
    by_cases hid : log.id = logs.length
    · exact .inl ⟨data, rfl, hid⟩
    · exact .inr (.inr hid)

/-! ## Ids -/

def Indexed (logs : List LogEntry) : Prop :=
  ∀ (i : Nat) (e : LogEntry), logs[i]? = some e → e.id = i

theorem indexed_nil : Indexed [] := by
  intro i e h
  simp at h

namespace Indexed

variable {logs : List LogEntry}

theorem push (h : Indexed logs) {log : LogEntry} (hid : log.id = logs.length) :
    Indexed (logs ++ [log]) := by
  intro i e he
  rcases Nat.lt_or_ge i logs.length with hi | hi
  · rw [List.getElem?_append_left hi] at he
    exact h i e he
  · rw [List.getElem?_append_right hi] at he
    have hi0 : i - logs.length = 0 := by
      by_contra hne
      rw [List.getElem?_eq_none (by simp; omega)] at he
      cases he
    rw [hi0] at he
    cases he
    omega

theorem push_snd (h : Indexed logs) (log : LogEntry) : Indexed (Logs.push log logs).2 := by
  rcases push_cases log logs with ⟨data, hd, hid⟩ | hr
  · rw [push_accepted hd hid]
    exact h.push hid
  · rw [push_rejected hr]
    exact h

theorem take (h : Indexed logs) (k : Nat) : Indexed (logs.take k) := by
  intro i e he
  rw [List.getElem?_take] at he
  split at he
  · exact h i e he
  · cases he

theorem of_prefix {p : List LogEntry} (h : Indexed logs) (hp : p <+: logs) : Indexed p := by
  rw [List.prefix_iff_eq_take] at hp
  rw [hp]
  exact h.take _

theorem getLast (h : Indexed logs) {log : LogEntry} (hl : logs.getLast? = some log) :
    log.id + 1 = logs.length := by
  rw [List.getLast?_eq_getElem?] at hl
  have hne : logs ≠ [] := by
    rintro rfl
    simp at hl
  have hpos : 0 < logs.length := List.length_pos_of_ne_nil hne
  have := h _ _ hl
  omega

theorem mem_iff (h : Indexed logs) {e : LogEntry} : e ∈ logs ↔ logs[e.id]? = some e := by
  refine ⟨fun he => ?_, fun he => List.mem_of_getElem? he⟩
  obtain ⟨i, hi⟩ := List.mem_iff_getElem?.1 he
  rw [h i e hi]
  exact hi

end Indexed

/-! ## What a request does -/

/-- The request carries an entry, and the log agrees with it on the predecessor. -/
def Matches (request : AppendEntriesRequest) (logs : List LogEntry) : Prop :=
  request.entries ≠ [] ∧ (request.leaderCommit = 0 ∨
    ∃ log, logs[request.prevLogIndex]? = some log ∧ log.term = request.prevLogTerm)

/-- The last entry of the log is the one the request carries. -/
def Confirms (request : AppendEntriesRequest) (logs : List LogEntry) : Prop :=
  ∃ log, logs.getLast? = some log ∧ log.command.isSome ∧ log.id = request.leaderCommit ∧
    log.term = request.term

/-- The request carries an entry, and the log disagrees with it on the predecessor. -/
def RollsBack (request : AppendEntriesRequest) (logs : List LogEntry) : Prop :=
  request.entries ≠ [] ∧ request.leaderCommit ≠ 0 ∧
    ∃ log, logs[request.prevLogIndex]? = some log ∧ log.term ≠ request.prevLogTerm

/-- What a request does to a log, with its notices. -/
inductive Outcome (request : AppendEntriesRequest) (logs : List LogEntry) :
    Bool × List LogEntry → List Effect → Prop
  | ignored : ¬ (Matches request logs ∧ request.leaderCommit ≤ logs.length) →
      Outcome request logs (false, logs) []
  | rolledBack : RollsBack request logs →
      Outcome request logs (false, logs.take request.prevLogIndex) []
  | confirmed : Matches request logs → Confirms request logs → Outcome request logs (true, logs) []
  | replaced : Matches request logs → ¬ Confirms request logs →
      request.leaderCommit < logs.length →
      Outcome request logs (true, logs.take request.leaderCommit ++ [entry request])
        [.reverted request.leaderCommit, .committed request.leaderCommit (some request.entries)]
  | pushed : Matches request logs → request.leaderCommit = logs.length →
      Outcome request logs (true, logs ++ [entry request])
        [.committed request.leaderCommit (some request.entries)]

variable {logs : List LogEntry}

theorem push_entry {request : AppendEntriesRequest} (h : request.leaderCommit = logs.length) :
    push (entry request) logs = (true, logs ++ [entry request]) ∧
      pushNotices (entry request) logs =
        [.committed request.leaderCommit (some request.entries)] := by
  have hp := push_accepted (l := entry request) rfl h
  refine ⟨hp, ?_⟩
  rw [pushNotices, hp]
  rfl

theorem push_entry_rejected {request : AppendEntriesRequest}
    (h : logs.length < request.leaderCommit) :
    push (entry request) logs = (false, logs) ∧ pushNotices (entry request) logs = [] := by
  have hp := push_rejected (l := entry request) (L := logs) (.inr (Nat.ne_of_gt h))
  refine ⟨hp, ?_⟩
  rw [pushNotices, hp]
  rfl

theorem commit_outcome (h : Indexed logs) {request : AppendEntriesRequest}
    (hm : Matches request logs) :
    Outcome request logs (commit request logs) (commitNotices request logs) := by
  have hend : ¬ request.leaderCommit < logs.length →
      Outcome request logs (push (entry request) logs) (pushNotices (entry request) logs) := by
    intro hge
    rcases Nat.lt_or_ge logs.length request.leaderCommit with hlt | hle
    · obtain ⟨h1, h2⟩ := push_entry_rejected hlt
      rw [h1, h2]
      exact .ignored fun hm => by omega
    · have he : request.leaderCommit = logs.length := by omega
      obtain ⟨h1, h2⟩ := push_entry he
      rw [h1, h2]
      exact .pushed hm he
  unfold commit commitNotices
  cases hl : logs.getLast? with
  | none =>
    have hnil : logs = [] := List.getLast?_eq_none_iff.1 hl
    exact hend (by simp [hnil])
  | some log =>
    have hid := h.getLast hl
    simp only
    by_cases hc : log.command.isSome ∧ log.id = request.leaderCommit ∧ log.term = request.term
    · rw [if_pos hc, if_pos hc]
      exact .confirmed hm ⟨log, hl, hc⟩
    rw [if_neg hc, if_neg hc]
    by_cases hge : log.id ≥ request.leaderCommit
    · have hrev : revert request.leaderCommit logs = logs.take request.leaderCommit :=
        if_neg (by omega)
      have hlen : request.leaderCommit = (logs.take request.leaderCommit).length := by
        simp only [List.length_take]
        omega
      obtain ⟨h1, h2⟩ := push_entry hlen
      rw [if_pos hge, if_pos hge, hrev, h1, h2]
      refine .replaced hm ?_ (by omega)
      rintro ⟨log', hl', hc'⟩
      rw [hl] at hl'
      cases hl'
      exact hc hc'
    · rw [if_neg hge, if_neg hge]
      exact hend (by omega)

/-- A rollback shortens the log and gives no notice. -/
theorem append_of_rollsBack (h : Indexed logs) {request : AppendEntriesRequest}
    (hr : RollsBack request logs) :
    append request logs = (false, logs.take request.prevLogIndex) ∧
      appendNotices request logs = [] ∧ request.prevLogIndex < logs.length := by
  obtain ⟨he, hk, log, hp, ht⟩ := hr
  have hlt : request.prevLogIndex < logs.length := (List.getElem?_eq_some_iff.1 hp).1
  have hlen : request.entries.length ≠ 0 := by simpa using he
  have hrev : revert log.id logs = logs.take request.prevLogIndex := by
    rw [h _ _ hp]
    exact if_neg (by omega)
  refine ⟨?_, ?_, hlt⟩
  · unfold append
    rw [if_neg hlen, if_neg hk, hp]
    simp only
    rw [if_pos ht, hrev]
  · unfold appendNotices
    rw [if_neg hlen, if_neg hk, hp]
    simp only
    rw [if_pos ht]

/-- **What a request does to a log.** -/
theorem append_outcome (h : Indexed logs) (request : AppendEntriesRequest) :
    Outcome request logs (append request logs) (appendNotices request logs) := by
  by_cases hr : RollsBack request logs
  · obtain ⟨h1, h2, -⟩ := append_of_rollsBack h hr
    rw [h1, h2]
    exact .rolledBack hr
  unfold append appendNotices
  by_cases he : request.entries = []
  · rw [if_pos (by simp [he]), if_pos (by simp [he])]
    exact .ignored fun hm => hm.1.1 he
  have hlen : request.entries.length ≠ 0 := by simpa using he
  rw [if_neg hlen, if_neg hlen]
  by_cases hk : request.leaderCommit = 0
  · rw [if_pos hk, if_pos hk]
    exact commit_outcome h ⟨he, .inl hk⟩
  rw [if_neg hk, if_neg hk]
  cases hp : logs[request.prevLogIndex]? with
  | none =>
    refine .ignored ?_
    rintro ⟨⟨-, h0 | ⟨log, hlog, -⟩⟩, -⟩
    · exact hk h0
    · rw [hp] at hlog
      cases hlog
  | some log =>
    simp only
    by_cases ht : log.term = request.prevLogTerm
    · rw [if_neg (not_not.2 ht), if_neg (not_not.2 ht)]
      exact commit_outcome h ⟨he, .inr ⟨log, hp, ht⟩⟩
    · exact absurd ⟨he, hk, log, hp, ht⟩ hr

theorem Indexed.append (h : Indexed logs) (request : AppendEntriesRequest) :
    Indexed (append request logs).2 := by
  have ho := append_outcome h request
  generalize Logs.append request logs = r at ho ⊢
  generalize appendNotices request logs = es at ho
  cases ho with
  | ignored => exact h
  | rolledBack _ => exact h.take _
  | confirmed _ _ => exact h
  | replaced _ _ hlt =>
    apply (h.take _).push
    rw [List.length_take]
    exact (Nat.min_eq_left (Nat.le_of_lt hlt)).symm
  | pushed _ he => exact h.push he

/-- A request adds its own entry, if any. -/
theorem mem_of_append (h : Indexed logs) {request : AppendEntriesRequest} {e : LogEntry}
    (he : e ∈ (append request logs).2) : e ∈ logs ∨ e = entry request := by
  have ho := append_outcome h request
  generalize append request logs = r at ho he
  generalize appendNotices request logs = es at ho
  cases ho with
  | ignored => exact .inl he
  | rolledBack _ => exact .inl (List.mem_of_mem_take he)
  | confirmed _ _ => exact .inl he
  | replaced _ _ _ =>
    rcases List.mem_append.1 he with he | he
    · exact .inl (List.mem_of_mem_take he)
    · exact .inr (List.mem_singleton.1 he)
  | pushed _ _ =>
    rcases List.mem_append.1 he with he | he
    · exact .inl he
    · exact .inr (List.mem_singleton.1 he)

/-- The notices of a request are about the log. -/
theorem mem_appendNotices {request : AppendEntriesRequest} {e : Effect}
    (he : e ∈ appendNotices request logs) :
    (∃ id, e = .reverted id) ∨ ∃ id command, e = .committed id command := by
  have hpush : ∀ log l, e ∈ pushNotices log l → ∃ id command, e = .committed id command := by
    intro log l hm
    unfold pushNotices at hm
    split at hm
    · exact ⟨_, _, List.mem_singleton.1 hm⟩
    · cases hm
  have hcommit : e ∈ commitNotices request logs →
      (∃ id, e = .reverted id) ∨ ∃ id command, e = .committed id command := by
    intro hm
    unfold commitNotices at hm
    split at hm
    · exact .inr (hpush _ _ hm)
    split at hm
    · cases hm
    split at hm
    · rcases List.mem_cons.1 hm with rfl | hm
      · exact .inl ⟨_, rfl⟩
      · exact .inr (hpush _ _ hm)
    · exact .inr (hpush _ _ hm)
  unfold appendNotices at he
  split at he
  · cases he
  split at he
  · exact hcommit he
  split at he
  · cases he
  split at he
  · cases he
  · exact hcommit he

end Foros.Logs

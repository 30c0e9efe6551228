import Foros.Raft.ContextStore
import Mathlib.Data.List.Infix

/-!
# What the database holds

`db.Holds s`: opening `db` gives back the term, the vote and the log of `s` (`create_of_holds`).
Each `Put` of the store keeps it for the context it stores; the two `Put`s of an entry past the
end of the log are invisible until the size is stored (`holds_putEntry`, `holds_push`). The keys
of entries are distinct because decimal numerals are.
-/

namespace Foros

open Lib

/-! ## Keys -/

theorem repr_inj {m n : Nat} (h : Nat.repr m = Nat.repr n) : m = n := by
  have hd := congrArg String.toList h
  rw [Nat.toList_repr, Nat.toList_repr] at hd
  have := congrArg (Nat.ofDigitChars 10 · 0) hd
  simpa [Nat.ofDigitChars_ten_toDigits] using this

theorem getLogTermKey_inj {i j : Nat} (h : getLogTermKey i = getLogTermKey j) : i = j := by
  simp only [getLogTermKey, String.append_left_inj, String.append_right_inj] at h
  exact repr_inj h

theorem getLogDataKey_inj {i j : Nat} (h : getLogDataKey i = getLogDataKey j) : i = j := by
  simp only [getLogDataKey, String.append_left_inj, String.append_right_inj] at h
  exact repr_inj h

theorem getLogTermKey_ne_data (i j : Nat) : getLogTermKey i ≠ getLogDataKey j := by
  intro h
  have hl := congrArg (fun s : String => s.toList.reverse.head?) h
  simp [getLogTermKey, getLogDataKey, kLogTermKeySuffix, kLogDataKeySuffix] at hl

/-- A key of the context itself: no entry is stored under it. -/
def ContextKey (key : String) : Prop := ∀ i, key ≠ getLogTermKey i ∧ key ≠ getLogDataKey i

theorem contextKey_of {key : String} (h : key.toList.take 4 ≠ kLogKeyPrefix.toList) :
    ContextKey key := by
  refine fun i => ⟨fun he => h ?_, fun he => h ?_⟩ <;> subst he
  · simp [getLogTermKey, kLogKeyPrefix]
  · simp [getLogDataKey, kLogKeyPrefix]

theorem contextKey_currentTerm : ContextKey kCurrentTermKey := contextKey_of (by decide)
theorem contextKey_votedFor : ContextKey kVotedForKey := contextKey_of (by decide)
theorem contextKey_voted : ContextKey kVotedKey := contextKey_of (by decide)
theorem contextKey_logSize : ContextKey kLogSizeKey := contextKey_of (by decide)

/-! ## Reading after a `Put` -/

namespace LevelDB

variable {db : LevelDB}

theorem get_put_same (key : String) (value : Bytes) : (db.put key value).get key = some value :=
  if_pos rfl

theorem get_put_ne {key k : String} (h : k ≠ key) (value : Bytes) :
    (db.put key value).get k = db.get k := if_neg h

theorem loadWord_put_same {w n : Nat} (key : String) (h : n < 256 ^ w) :
    (db.put key (encodeLE w n)).loadWord w key = n := by
  simp [loadWord, get_put_same, decodeLE_encodeLE_of_lt h]

theorem loadWord_put_ne {key k : String} (h : k ≠ key) (w : Nat) (value : Bytes) :
    (db.put key value).loadWord w k = db.loadWord w k := by
  simp only [loadWord, get_put_ne h]

theorem loadLog_put_ne {key : String} {i : Nat} (ht : getLogTermKey i ≠ key)
    (hd : getLogDataKey i ≠ key) (value : Bytes) :
    (db.put key value).loadLog i = db.loadLog i := by
  simp only [loadLog, get_put_ne ht, get_put_ne hd]

theorem loadLog_put_context {key : String} (h : ContextKey key) (i : Nat) (value : Bytes) :
    (db.put key value).loadLog i = db.loadLog i :=
  loadLog_put_ne (Ne.symm (h i).1) (Ne.symm (h i).2) value

/-- An entry whose two keys were just stored. -/
theorem loadLog_put_entry {i term : Nat} (data : Bytes) (h : term < 256 ^ 8) :
    ((db.put (getLogTermKey i) (encodeLE 8 term)).put (getLogDataKey i) data).loadLog i =
      some ⟨i, term, some data⟩ := by
  have ht : getLogTermKey i ≠ getLogDataKey i := getLogTermKey_ne_data i i
  simp only [loadLog, get_put_ne ht, get_put_same, length_encodeLE, Nat.lt_irrefl, if_false,
    Option.getD_some]
  rw [List.take_of_length_le (by simp), decodeLE_encodeLE_of_lt h]

/-! ## Holding a context -/

/-- Opening the database gives back the context of `s`. -/
structure Holds (db : LevelDB) (s : ContextStore) : Prop where
  term : db.loadWord 8 kCurrentTermKey = s.currentTerm
  votedFor : db.loadWord 4 kVotedForKey = s.votedFor
  voted : (db.loadWord 1 kVotedKey != 0) = s.voted
  size : db.loadLogsSize = s.logs.length
  entries : ∀ i < s.logs.length, db.loadLog i = s.logs[i]?

variable {s : ContextStore}

/-- Only the stored part of the context matters. -/
theorem Holds.congr {s' : ContextStore} (h : db.Holds s) (ht : s'.currentTerm = s.currentTerm)
    (hf : s'.votedFor = s.votedFor) (hv : s'.voted = s.voted) (hl : s'.logs = s.logs) :
    db.Holds s' := by
  obtain ⟨h1, h2, h3, h4, h5⟩ := h
  exact ⟨by rw [h1, ht], by rw [h2, hf], by rw [h3, hv], by rw [h4, hl], by rw [hl]; exact h5⟩

theorem Holds.putTerm {t : Nat} (h : db.Holds s) (ht : t < 2 ^ 64) :
    (db.put kCurrentTermKey (encodeLE 8 t)).Holds { s with currentTerm := t } where
  term := loadWord_put_same _ (by omega)
  votedFor := by rw [loadWord_put_ne (by decide)]; exact h.votedFor
  voted := by rw [loadWord_put_ne (by decide)]; exact h.voted
  size := by rw [loadLogsSize, loadWord_put_ne (by decide)]; exact h.size
  entries i hi := by rw [loadLog_put_context contextKey_currentTerm]; exact h.entries i hi

theorem Holds.putVotedFor {id : Nat} (h : db.Holds s) (hid : id < 2 ^ 32) :
    (db.put kVotedForKey (encodeLE 4 id)).Holds { s with votedFor := id } where
  term := by rw [loadWord_put_ne (by decide)]; exact h.term
  votedFor := loadWord_put_same _ (by omega)
  voted := by rw [loadWord_put_ne (by decide)]; exact h.voted
  size := by rw [loadLogsSize, loadWord_put_ne (by decide)]; exact h.size
  entries i hi := by rw [loadLog_put_context contextKey_votedFor]; exact h.entries i hi

theorem Holds.putVoted (h : db.Holds s) (b : Bool) :
    (db.put kVotedKey (encodeLE 1 b.toNat)).Holds { s with voted := b } where
  term := by rw [loadWord_put_ne (by decide)]; exact h.term
  votedFor := by rw [loadWord_put_ne (by decide)]; exact h.votedFor
  voted := by rw [loadWord_put_same _ (by cases b <;> decide)]; cases b <;> rfl
  size := by rw [loadLogsSize, loadWord_put_ne (by decide)]; exact h.size
  entries i hi := by rw [loadLog_put_context contextKey_voted]; exact h.entries i hi

/-- Storing a smaller size truncates the log. -/
theorem Holds.putSize {i : Nat} (h : db.Holds s) (hi : i ≤ s.logs.length) (hlt : i < 2 ^ 64) :
    (db.put kLogSizeKey (encodeLE 8 i)).Holds { s with logs := s.logs.take i } where
  term := by rw [loadWord_put_ne (by decide)]; exact h.term
  votedFor := by rw [loadWord_put_ne (by decide)]; exact h.votedFor
  voted := by rw [loadWord_put_ne (by decide)]; exact h.voted
  size := by
    rw [loadLogsSize, loadWord_put_same _ (by omega)]
    simp [hi]
  entries j hj := by
    simp only [List.length_take, Nat.lt_min] at hj
    rw [loadLog_put_context contextKey_logSize, h.entries j hj.2, List.getElem?_take, if_pos hj.1]

/-- A `Put` under a key of an entry past the end of the log is invisible. -/
theorem Holds.putEntry {i : Nat} {key : String} (h : db.Holds s) (hi : s.logs.length ≤ i)
    (hkey : key = getLogTermKey i ∨ key = getLogDataKey i) (value : Bytes) :
    (db.put key value).Holds s := by
  have hctx : ∀ k, ContextKey k → k ≠ key := by
    rintro k hk rfl
    rcases hkey with he | he
    · exact (hk i).1 he
    · exact (hk i).2 he
  have hent : ∀ j < s.logs.length, getLogTermKey j ≠ key ∧ getLogDataKey j ≠ key := by
    intro j hj
    rcases hkey with rfl | rfl
    · refine ⟨fun he => ?_, fun he => getLogTermKey_ne_data i j he.symm⟩
      have := getLogTermKey_inj he
      omega
    · refine ⟨getLogTermKey_ne_data j i, fun he => ?_⟩
      have := getLogDataKey_inj he
      omega
  exact
    { term := by rw [loadWord_put_ne (hctx _ contextKey_currentTerm)]; exact h.term
      votedFor := by rw [loadWord_put_ne (hctx _ contextKey_votedFor)]; exact h.votedFor
      voted := by rw [loadWord_put_ne (hctx _ contextKey_voted)]; exact h.voted
      size := by rw [loadLogsSize, loadWord_put_ne (hctx _ contextKey_logSize)]; exact h.size
      entries := fun j hj => by
        rw [loadLog_put_ne (hent j hj).1 (hent j hj).2]; exact h.entries j hj }

/-- The three `Put`s of `push_log`. -/
theorem Holds.push {log : LogEntry} {data : Bytes} (h : db.Holds s)
    (hid : log.id = s.logs.length) (hc : log.command = some data) (ht : log.term < 2 ^ 64)
    (hlt : s.logs.length + 1 < 2 ^ 64) :
    (((db.put (getLogTermKey log.id) (encodeLE 8 log.term)).put (getLogDataKey log.id) data).put
      kLogSizeKey (encodeLE 8 (s.logs.length + 1))).Holds { s with logs := s.logs ++ [log] } := by
  have h2 := (h.putEntry (i := log.id) (by omega) (.inl rfl) (encodeLE 8 log.term)).putEntry
    (i := log.id) (by omega) (.inr rfl) data
  refine
    { term := by rw [loadWord_put_ne (by decide)]; exact h2.term
      votedFor := by rw [loadWord_put_ne (by decide)]; exact h2.votedFor
      voted := by rw [loadWord_put_ne (by decide)]; exact h2.voted
      size := by rw [loadLogsSize, loadWord_put_same _ (by omega)]; simp
      entries := fun j hj => ?_ }
  rw [loadLog_put_context contextKey_logSize]
  by_cases hj' : j < s.logs.length
  · rw [h2.entries j hj', List.getElem?_append_left hj']
  · have hj2 : j = log.id := by simp at hj; omega
    subst hj2
    obtain ⟨id, term, command⟩ := log
    simp only at hid hc ht ⊢
    subst hid hc
    rw [loadLog_put_entry data (by omega)]
    simp

end LevelDB

/-! ## Opening -/

namespace ContextStore

variable {ok : Nat → Bool}

theorem initLogsFrom_succ (fuel i : Nat) (s : ContextStore) :
    initLogsFrom ok (fuel + 1) i s =
      if i < s.db.loadLogsSize then
        match s.db.loadLog i with
        | none => (s.storeLogsSize ok i).2
        | some log => initLogsFrom ok fuel (i + 1) { s with logs := s.logs ++ [log] }
      else s := rfl

/-- The loop of `init_logs` has ended once `i` reached the stored size: fuel past it is unused. -/
theorem initLogsFrom_stop : ∀ (fuel i : Nat) (s : ContextStore), s.db.loadLogsSize ≤ i + fuel →
    initLogsFrom ok (fuel + 1) i s = initLogsFrom ok fuel i s
  | 0, i, s, h => by
    rw [initLogsFrom_succ, if_neg (by omega)]
    rfl
  | fuel + 1, i, s, h => by
    rw [initLogsFrom_succ, initLogsFrom_succ fuel]
    split
    · split
      · rfl
      · rename_i log _
        exact initLogsFrom_stop fuel (i + 1) { s with logs := s.logs ++ [log] }
          (show s.db.loadLogsSize ≤ _ by omega)
    · rfl

theorem initLogsFrom_of {db : LevelDB} {logs : List LogEntry}
    (hsize : db.loadLogsSize = logs.length) (hent : ∀ i < logs.length, db.loadLog i = logs[i]?) :
    ∀ (fuel i : Nat) (s : ContextStore), s.db = db → s.logs = logs.take i →
      i + fuel = logs.length → initLogsFrom ok fuel i s = { s with logs := logs }
  | 0, i, s, _, hl, hi => by
    rw [List.take_of_length_le (by omega)] at hl
    subst hl
    rfl
  | fuel + 1, i, s, hdb, hl, hi => by
    have hlt : i < logs.length := by omega
    have hload : s.db.loadLog i = some logs[i] := by
      rw [hdb, hent i hlt, List.getElem?_eq_getElem hlt]
    have hnext : s.logs ++ [logs[i]] = logs.take (i + 1) := by
      rw [hl, List.take_add_one, List.getElem?_eq_getElem hlt]
      rfl
    rw [initLogsFrom_succ, hdb, hsize, if_pos hlt, ← hdb, hload]
    exact initLogsFrom_of hsize hent fuel (i + 1) { s with logs := s.logs ++ [logs[i]] } hdb hnext
      (by omega)

/-- **Opening a database gives back the context it holds**, with no votes counted. -/
theorem create_of_holds {db : LevelDB} {s : ContextStore} (h : db.Holds s) :
    create ok db = { s with voteReceived := 0, db := db, journal := [], attempts := 0 } := by
  obtain ⟨h1, h2, h3, h4, h5⟩ := h
  unfold create initLogs
  simp only [h4]
  rw [initLogsFrom_of h4 h5 _ 0 _ rfl rfl (by simp)]
  simp only [h1, h2, h3]

theorem holds_create_empty : LevelDB.empty.Holds (create ok .empty) where
  term := rfl
  votedFor := rfl
  voted := rfl
  size := rfl
  entries i hi := by simp [create, initLogs, initLogsFrom, LevelDB.loadLogsSize,
    LevelDB.loadWord, LevelDB.get, LevelDB.empty] at hi

end ContextStore

end Foros

import Foros.Lib.Word
import Foros.Raft.Types

/-!
# The stored context (`raft/context_store.cpp`)

LevelDB is a map from keys to byte strings. A `ContextStore` is the in-memory context, the
database, the `Put`s executed since the journal was last emptied (oldest first), and the number
of `Put`s attempted; `ok n` says whether the `n`-th `Put` succeeds, and a failing one leaves the
database unchanged. A store whose database could not be opened (`db_ == nullptr`) behaves as one
whose every `Put` fails.
-/

namespace Foros

open Lib (encodeLE decodeLE)

/-! ## Keys -/

def kCurrentTermKey : String := "current_term"
def kVotedForKey : String := "voted_for"
def kVotedKey : String := "voted"
def kLogKeyPrefix : String := "log/"
def kLogDataKeySuffix : String := "/data"
def kLogTermKeySuffix : String := "/term"
def kLogSizeKey : String := "log_size"

def getLogDataKey (id : Nat) : String := kLogKeyPrefix ++ Nat.repr id ++ kLogDataKeySuffix

def getLogTermKey (id : Nat) : String := kLogKeyPrefix ++ Nat.repr id ++ kLogTermKeySuffix

/-! ## LevelDB -/

/-- A LevelDB database. -/
def LevelDB := String → Option Bytes

namespace LevelDB

def empty : LevelDB := fun _ => none

def get (db : LevelDB) (key : String) : Option Bytes := db key

def put (db : LevelDB) (key : String) (value : Bytes) : LevelDB :=
  fun k => if k = key then some value else db k

/-- The database after a list of `Put`s, oldest first. -/
def putAll (db : LevelDB) (puts : List (String × Bytes)) : LevelDB :=
  puts.foldl (fun db p => db.put p.1 p.2) db

/-- A stored word of `w` bytes; `0` when there is none or its size is not `w`. -/
def loadWord (db : LevelDB) (w : Nat) (key : String) : Nat :=
  match db.get key with
  | none => 0
  | some value => if value.length ≠ w then 0 else decodeLE value

def loadLogsSize (db : LevelDB) : Nat := db.loadWord 8 kLogSizeKey

/-- The first eight bytes of a stored term are read whatever follows them; a data key that is
not found leaves the `value` read for the term. -/
def loadLog (db : LevelDB) (id : Nat) : Option LogEntry :=
  match db.get (getLogTermKey id) with
  | none => none
  | some value =>
    if value.length < 8 then none
    else
      let data := (db.get (getLogDataKey id)).getD value
      some ⟨id, decodeLE (value.take 8), some data⟩

end LevelDB

/-! ## The store -/

structure ContextStore where
  currentTerm : Nat
  votedFor : Nat
  voted : Bool
  voteReceived : Nat
  logs : List LogEntry
  db : LevelDB
  journal : List (String × Bytes)
  attempts : Nat

namespace ContextStore

variable (ok : Nat → Bool)

/-- `db_->Put`. -/
def put (key : String) (value : Bytes) (s : ContextStore) : Bool × ContextStore :=
  if ok s.attempts then
    (true, { s with
      db := s.db.put key value
      journal := s.journal ++ [(key, value)]
      attempts := s.attempts + 1 })
  else (false, { s with attempts := s.attempts + 1 })

/-- `current_term(term)`. -/
def setCurrentTerm (term : Nat) (s : ContextStore) : Bool × ContextStore :=
  { s with currentTerm := term }.put ok kCurrentTermKey (encodeLE 8 term)

/-- `voted_for(id)`. -/
def setVotedFor (id : Nat) (s : ContextStore) : Bool × ContextStore :=
  { s with votedFor := id }.put ok kVotedForKey (encodeLE 4 id)

/-- `voted(voted)`. -/
def setVoted (voted : Bool) (s : ContextStore) : Bool × ContextStore :=
  { s with voted := voted }.put ok kVotedKey (encodeLE 1 voted.toNat)

def increaseVoteReceived (s : ContextStore) : ContextStore :=
  { s with voteReceived := (s.voteReceived + 1) % 2 ^ 32 }

def resetVoteReceived (s : ContextStore) : ContextStore := { s with voteReceived := 0 }

/-- `log(id)`. -/
def log (id : Nat) (s : ContextStore) : Option LogEntry := s.logs[id]?

/-- `log()`: the last entry. -/
def lastLog (s : ContextStore) : Option LogEntry := s.logs.getLast?

def logsSize (s : ContextStore) : Nat := s.logs.length

def storeLogsSize (size : Nat) (s : ContextStore) : Bool × ContextStore :=
  s.put ok kLogSizeKey (encodeLE 8 size)

def storeLogTerm (id term : Nat) (s : ContextStore) : Bool × ContextStore :=
  s.put ok (getLogTermKey id) (encodeLE 8 term)

def storeLogData (id : Nat) (data : Bytes) (s : ContextStore) : Bool × ContextStore :=
  s.put ok (getLogDataKey id) data

def pushLog (log : Option LogEntry) (s : ContextStore) : Bool × ContextStore :=
  match log with
  | none => (false, s)
  | some log =>
    match log.command with
    | none => (false, s)
    | some data =>
      if log.id ≠ s.logs.length then (false, s)
      else
        let (stored, s) := s.storeLogTerm ok log.id log.term
        if stored = false then (false, s)
        else
          let (stored, s) := s.storeLogData ok log.id data
          if stored = false then (false, s)
          else
            let (stored, s) := s.storeLogsSize ok (s.logs.length + 1)
            if stored = false then (false, s)
            else (true, { s with logs := s.logs ++ [log] })

/-- The result of `store_logs_size` is not looked at. -/
def revertLog (id : Nat) (s : ContextStore) : Bool × ContextStore :=
  if id ≥ s.logs.length then (false, s)
  else (true, ({ s with logs := s.logs.take id }.storeLogsSize ok id).2)

/-! ## Opening a database -/

/-- The loop of `init_logs` from index `i`; the size is read again before every iteration. -/
def initLogsFrom : Nat → Nat → ContextStore → ContextStore
  | 0, _, s => s
  | fuel + 1, i, s =>
    if i < s.db.loadLogsSize then
      match s.db.loadLog i with
      | none => (s.storeLogsSize ok i).2
      | some log => initLogsFrom fuel (i + 1) { s with logs := s.logs ++ [log] }
    else s

/-- `init_logs`: the loop ends after `load_logs_size()` iterations (`initLogsFrom_stop`). -/
def initLogs (s : ContextStore) : ContextStore :=
  initLogsFrom ok s.db.loadLogsSize 0 { s with logs := [] }

/-- `ContextStore::ContextStore`. -/
def create (db : LevelDB) : ContextStore :=
  initLogs ok
    { currentTerm := db.loadWord 8 kCurrentTermKey
      votedFor := db.loadWord 4 kVotedForKey
      voted := db.loadWord 1 kVotedKey != 0
      voteReceived := 0
      logs := []
      db := db
      journal := []
      attempts := 0 }

end ContextStore

end Foros

import Foros.Raft.Life
import Foros.Raft.Proof.Exchange
import Foros.Raft.Proof.Faulty
import Foros.Raft.Proof.Store

/-!
# Votes on a disk that fails

A `Ballot` is a term with the flag that says whether the vote in it is given: one in memory, one on
disk. Memory bars every vote the node has granted (`Voter.Inv`); the disk does so only while the
`Put`s of the term and of the flag keep up with memory, which `Context::vote` and `update_term` do
not check. `granted_votes_durable`: where no step is unsafe, all votes of a term are for the same
candidate, whatever crashes and whatever other `Put`s fail.
-/

namespace Foros

open Lib

/-! ## Ballots -/

/-- A term, and whether the vote in it is given. -/
structure Ballot where
  term : Nat
  voted : Bool
  deriving DecidableEq, Repr

namespace Ballot

/-- A node with this ballot grants no vote of term `T`. -/
def Bars (b : Ballot) (T : Nat) : Prop := T < b.term ∨ T = b.term ∧ b.voted = true

/-- The term is written, if the write succeeds. -/
def setTerm (done : Bool) (t : Nat) (b : Ballot) : Ballot :=
  if done then { b with term := t } else b

/-- The flag is written, if the write succeeds. -/
def setVoted (done : Bool) (voted : Bool) (b : Ballot) : Ballot :=
  if done then { b with voted := voted } else b

@[simp] theorem setVoted_term (done voted : Bool) (b : Ballot) :
    (b.setVoted done voted).term = b.term := by
  unfold setVoted
  split <;> rfl

@[simp] theorem setTerm_voted (done : Bool) (t : Nat) (b : Ballot) :
    (b.setTerm done t).voted = b.voted := by
  unfold setTerm
  split <;> rfl

theorem setTerm_true (t : Nat) (b : Ballot) : b.setTerm true t = { b with term := t } := rfl

theorem setTerm_false (t : Nat) (b : Ballot) : b.setTerm false t = b := rfl

theorem setVoted_false (voted : Bool) (b : Ballot) : b.setVoted false voted = b := rfl

/-- Setting the flag bars what was barred. -/
theorem Bars.setVoted {b : Ballot} {T : Nat} (h : b.Bars T) (done : Bool) :
    (b.setVoted done true).Bars T := by
  rcases h with hlt | ⟨heq, hvoted⟩
  · exact .inl (by rwa [setVoted_term])
  · refine .inr ⟨by rwa [setVoted_term], ?_⟩
    unfold Ballot.setVoted
    split
    · rfl
    · exact hvoted

end Ballot

namespace Node

/-- The ballot in memory. -/
def memory (n : Node) : Ballot := ⟨n.store.currentTerm, n.store.voted⟩

/-- The ballot a process reads that starts on the node's database. -/
def disk (n : Node) : Ballot :=
  ⟨n.store.db.loadWord 8 kCurrentTermKey, n.store.db.loadWord 1 kVotedKey != 0⟩

/-! ## What the `Put`s leave on disk -/

section

variable (ok : Nat → Bool) (n : Node)

theorem disk_setCurrentTerm {t : Nat} (ht : t < 2 ^ 64) :
    (n.onStore (·.setCurrentTerm ok t)).2.disk = n.disk.setTerm (ok n.store.attempts) t := by
  have hput : (n.store.db.put kCurrentTermKey (encodeLE 8 t)).loadWord 8 kCurrentTermKey = t :=
    LevelDB.loadWord_put_same _ (by omega)
  have hvoted : (n.store.db.put kCurrentTermKey (encodeLE 8 t)).loadWord 1 kVotedKey =
      n.store.db.loadWord 1 kVotedKey := LevelDB.loadWord_put_ne (by decide) ..
  rw [onStore_setCurrentTerm_eq]
  unfold disk Ballot.setTerm
  rw [db_tryPut]
  cases ok n.store.attempts with
  | false => rfl
  | true => simp only [if_true, hput, hvoted]

theorem disk_setVotedFor (id : Nat) : (n.onStore (·.setVotedFor ok id)).2.disk = n.disk := by
  have hne : ∀ (w : Nat) (key : String), key ≠ kVotedForKey →
      (n.store.db.put kVotedForKey (encodeLE 4 id)).loadWord w key = n.store.db.loadWord w key :=
    fun w _ h => LevelDB.loadWord_put_ne h w _
  rw [onStore_setVotedFor_eq]
  unfold disk
  rw [db_tryPut]
  cases ok n.store.attempts with
  | false => rfl
  | true => simp only [if_true, hne 8 _ (by decide : kCurrentTermKey ≠ kVotedForKey),
      hne 1 _ (by decide : kVotedKey ≠ kVotedForKey)]

theorem disk_setVoted (voted : Bool) :
    (n.onStore (·.setVoted ok voted)).2.disk = n.disk.setVoted (ok n.store.attempts) voted := by
  have hput : (n.store.db.put kVotedKey (encodeLE 1 voted.toNat)).loadWord 1 kVotedKey =
      voted.toNat := LevelDB.loadWord_put_same _ (by cases voted <;> decide)
  have hterm : (n.store.db.put kVotedKey (encodeLE 1 voted.toNat)).loadWord 8 kCurrentTermKey =
      n.store.db.loadWord 8 kCurrentTermKey := LevelDB.loadWord_put_ne (by decide) ..
  rw [onStore_setVoted_eq]
  unfold disk Ballot.setVoted
  rw [db_tryPut]
  cases ok n.store.attempts with
  | false => rfl
  | true =>
    simp only [if_true, hput, hterm]
    cases voted <;> rfl

theorem attempts_setCurrentTerm (t : Nat) :
    (n.onStore (·.setCurrentTerm ok t)).2.store.attempts = n.store.attempts + 1 := by
  rw [onStore_setCurrentTerm_eq, attempts_tryPut]

theorem attempts_setVotedFor (id : Nat) :
    (n.onStore (·.setVotedFor ok id)).2.store.attempts = n.store.attempts + 1 := by
  rw [onStore_setVotedFor_eq, attempts_tryPut]

theorem attempts_setVoted (voted : Bool) :
    (n.onStore (·.setVoted ok voted)).2.store.attempts = n.store.attempts + 1 := by
  rw [onStore_setVoted_eq, attempts_tryPut]

theorem disk_resetVote :
    (resetVote (.faulty ok) n).disk = n.disk.setVoted (ok (n.store.attempts + 1)) false ∧
      (resetVote (.faulty ok) n).store.attempts = n.store.attempts + 2 := by
  have hkeep : ∀ m : Node,
      ({ m with store := m.store.resetVoteReceived } : Node).disk = m.disk := fun _ => rfl
  have hcount : ∀ m : Node,
      ({ m with store := m.store.resetVoteReceived } : Node).store.attempts = m.store.attempts :=
    fun _ => rfl
  constructor
  · refine (disk_setVoted ok _ false).trans ?_
    rw [hkeep, hcount]
    refine congrArg₂ (fun b a => Ballot.setVoted (ok a) false b) ?_ ?_
    · exact disk_setVotedFor ok n 0
    · exact attempts_setVotedFor ok n 0
  · refine (attempts_setVoted ok _ false).trans ?_
    rw [hcount]
    exact congrArg (· + 1) (attempts_setVotedFor ok n 0)

/-- A transition keeps the store. -/
theorem raise_store (event : Event) : (raise (.faulty ok) event n).store = n.store := by
  rw [raise_faulty]
  cases ht : transitionMap n.state event with
  | none => rw [raise_none ht]
  | some next =>
    cases next with
    | none => rw [raise_stay ht]
    | some next =>
      obtain ⟨q, et, bt, -, he⟩ := raise_eq ht
      rw [he]

/-- A new term: three `Put`s, of the term, of the candidate and of the flag. -/
theorem disk_updateTerm {t : Nat} (hlt : n.store.currentTerm < t) (ht : t < 2 ^ 64) :
    (updateTerm (.faulty ok) t false n).2.disk =
        (n.disk.setTerm (ok n.store.attempts) t).setVoted (ok (n.store.attempts + 2)) false ∧
      (updateTerm (.faulty ok) t false n).2.store.attempts = n.store.attempts + 3 := by
  have hstore : (updateTerm (.faulty ok) t false n).2.store =
      (resetVote (.faulty ok) (n.onStore (·.setCurrentTerm ok t)).2).store := by
    unfold updateTerm
    rw [if_neg (Nat.not_le_of_lt hlt)]
    exact raise_store ok _ .newTermReceived
  have hdisk : (updateTerm (.faulty ok) t false n).2.disk =
      (resetVote (.faulty ok) (n.onStore (·.setCurrentTerm ok t)).2).disk := by
    unfold disk
    rw [hstore]
  obtain ⟨h1, h2⟩ := disk_resetVote ok (n.onStore (·.setCurrentTerm ok t)).2
  rw [hdisk, hstore, h1, h2, attempts_setCurrentTerm, disk_setCurrentTerm ok n ht]
  exact ⟨rfl, rfl⟩

/-- A vote: two `Put`s, of the candidate and of the flag. -/
theorem disk_vote (request : RequestVoteRequest) :
    (vote (.faulty ok) request.term request.candidateId request.lastDataIndex
      request.loatDataTerm n).2.disk =
        if n.core.Grants request then n.disk.setVoted (ok (n.store.attempts + 1)) true
        else n.disk := by
  rw [vote_faulty]
  split
  · rw [disk_setVoted, disk_setVotedFor, attempts_setVotedFor]
  · rfl

end

/-- The node answers the request with its vote. -/
def WouldGrant (request : RequestVoteRequest) (n : Node) : Prop :=
  n.isValidNode request.candidateId = true ∧ (n.core.observe request.term).Grants request

instance (request : RequestVoteRequest) (n : Node) : Decidable (n.WouldGrant request) := by
  unfold WouldGrant; infer_instance

variable {n : Node} {request : RequestVoteRequest}

/-- The answer and the ballot in memory are those of a plain environment. -/
theorem onRequestVoteRequested_memory (ok : Nat → Bool)
    (hm : n.isValidNode request.candidateId = true) :
    (onRequestVoteRequested (.faulty ok) request n).1 =
        ⟨max n.store.currentTerm request.term, decide (n.WouldGrant request)⟩ ∧
      (onRequestVoteRequested (.faulty ok) request n).2.memory =
        ⟨max n.store.currentTerm request.term,
          (n.core.observe request.term).voted || decide (n.WouldGrant request)⟩ := by
  have hcore := core_updateTerm ok request.term n
  have hgrant : n.WouldGrant request ↔ (n.core.observe request.term).Grants request :=
    and_iff_right hm
  unfold onRequestVoteRequested
  rw [if_neg (by simp [hm])]
  simp only
  rw [vote_faulty, hcore]
  have hterm : (n.core.observe request.term).term = max n.store.currentTerm request.term :=
    Core.observe_term ..
  refine ⟨by simp only [hterm, hgrant], ?_⟩
  have hmemory : ∀ m : Node, m.memory = ⟨m.core.term, m.core.voted⟩ := fun _ => rfl
  rw [hmemory]
  split
  · rename_i hg
    rw [core_setVoted, core_setVotedFor, hcore, hterm]
    simp [hgrant, hg]
  · rename_i hg
    rw [hcore, hterm]
    simp [hgrant, hg]

/-- The ballot on disk, by the `Put`s that succeed. -/
theorem onRequestVoteRequested_disk (ok : Nat → Bool)
    (hm : n.isValidNode request.candidateId = true) (ht : request.term < 2 ^ 64) :
    (onRequestVoteRequested (.faulty ok) request n).2.disk =
      if n.store.currentTerm < request.term then
        let b := (n.disk.setTerm (ok n.store.attempts) request.term).setVoted
          (ok (n.store.attempts + 2)) false
        if n.WouldGrant request then b.setVoted (ok (n.store.attempts + 4)) true else b
      else if n.WouldGrant request then n.disk.setVoted (ok (n.store.attempts + 1)) true
      else n.disk := by
  have hcore := core_updateTerm ok request.term n
  have hgrant : n.WouldGrant request ↔ (n.core.observe request.term).Grants request :=
    and_iff_right hm
  unfold onRequestVoteRequested
  rw [if_neg (by simp [hm])]
  simp only
  rw [disk_vote, hcore]
  simp only [← hgrant]
  by_cases hlt : n.store.currentTerm < request.term
  · obtain ⟨h1, h2⟩ := disk_updateTerm ok n hlt ht
    rw [if_pos hlt, h1, h2]
  · rw [if_neg hlt, updateTerm_of_le (Nat.le_of_not_lt hlt)]

/-! ## A new process -/

/-- Reading the log touches neither the term nor the vote. -/
theorem initLogsFrom_ballot (ok : Nat → Bool) : ∀ (fuel i : Nat) (s : ContextStore),
    (s.initLogsFrom ok fuel i).currentTerm = s.currentTerm ∧
      (s.initLogsFrom ok fuel i).voted = s.voted ∧
      ∀ (w : Nat) (key : String), key ≠ kLogSizeKey →
        (s.initLogsFrom ok fuel i).db.loadWord w key = s.db.loadWord w key
  | 0, _, s => ⟨rfl, rfl, fun _ _ _ => rfl⟩
  | fuel + 1, i, s => by
    rw [ContextStore.initLogsFrom_succ]
    split
    · split
      · unfold ContextStore.storeLogsSize ContextStore.put
        split
        · exact ⟨rfl, rfl, fun w key hne => LevelDB.loadWord_put_ne hne w _⟩
        · exact ⟨rfl, rfl, fun _ _ _ => rfl⟩
      · exact initLogsFrom_ballot ok fuel (i + 1) _
    · exact ⟨rfl, rfl, fun _ _ _ => rfl⟩

/-- A process that starts reads its ballot from disk. -/
theorem create_ballot (ok : Nat → Bool) (ids : List Nat) (me : Nat) (n : Node) :
    (create (.faulty ok) ids me n.store.db).memory = n.disk ∧
      (create (.faulty ok) ids me n.store.db).disk = n.disk := by
  have hstore : (create (.faulty ok) ids me n.store.db).store =
      { ContextStore.create ok n.store.db with journal := [] } := rfl
  unfold memory disk
  rw [hstore]
  unfold ContextStore.create ContextStore.initLogs
  obtain ⟨h1, h2, h3⟩ := initLogsFrom_ballot ok n.store.db.loadLogsSize 0
    { currentTerm := n.store.db.loadWord 8 kCurrentTermKey
      votedFor := n.store.db.loadWord 4 kVotedForKey
      voted := n.store.db.loadWord 1 kVotedKey != 0
      voteReceived := 0, logs := [], db := n.store.db, journal := [], attempts := 0 }
  simp only [h1, h2, h3 8 _ (by decide : kCurrentTermKey ≠ kLogSizeKey),
    h3 1 _ (by decide : kVotedKey ≠ kLogSizeKey), and_self]

end Node

/-! ## Steps that keep the votes on disk -/

/-- The term of a request is a `uint64_t`. -/
def VoterEvent.Typed : VoterEvent → Prop
  | .handle _ request => request.term < 2 ^ 64
  | .crash _ request _ => request.term < 2 ^ 64

instance (event : VoterEvent) : Decidable event.Typed :=
  match event with
  | .handle _ request => inferInstanceAs (Decidable (request.term < 2 ^ 64))
  | .crash _ request _ => inferInstanceAs (Decidable (request.term < 2 ^ 64))

namespace Voter

/-- The vote that the request wins is on disk when the answer leaves: its term has been written, or
stands there already, and the flag is written, or stands there and is not cleared; or the disk is in
a later term. -/
def Records (ok : Nat → Bool) (request : RequestVoteRequest) (n : Node) : Prop :=
  let a := n.store.attempts
  if n.store.currentTerm < request.term then
    (ok a = true ∨ n.disk.term = request.term) ∧
        (ok (a + 4) = true ∨ ok (a + 2) = false ∧ n.disk.voted = true) ∨
      ok a = false ∧ request.term < n.disk.term
  else
    n.disk.term = n.store.currentTerm ∧ (ok (a + 1) = true ∨ n.disk.voted = true) ∨
      n.store.currentTerm < n.disk.term

/-- The flag of a vote granted before is not cleared under its term: the new term has been written,
or the clearing fails, or a new vote sets the flag again. -/
def Preserves (ok : Nat → Bool) (request : RequestVoteRequest) (v : Voter) : Prop :=
  let n := v.node
  let a := n.store.attempts
  n.isValidNode request.candidateId = true → n.store.currentTerm < request.term →
    (∃ p ∈ v.granted, p.1 = n.disk.term) →
      ok a = true ∨ ok (a + 2) = false ∨ n.WouldGrant request ∧ ok (a + 4) = true

def Safe (v : Voter) : VoterEvent → Prop
  | .handle ok request =>
    v.Preserves ok request ∧ (v.node.WouldGrant request → Records ok request v.node)
  | .crash ok request _ => v.Preserves ok request

instance (ok : Nat → Bool) (request : RequestVoteRequest) (n : Node) :
    Decidable (Records ok request n) := by
  unfold Records; infer_instance

instance (ok : Nat → Bool) (request : RequestVoteRequest) (v : Voter) :
    Decidable (v.Preserves ok request) := by
  unfold Preserves; infer_instance

instance (v : Voter) (event : VoterEvent) : Decidable (v.Safe event) := by
  cases event <;> unfold Safe <;> infer_instance

/-- Every vote granted is barred in memory and on disk, and is the only one of its term. -/
structure Inv (v : Voter) : Prop where
  memory : ∀ T d, (T, d) ∈ v.granted → v.node.memory.Bars T
  disk : ∀ T d, (T, d) ∈ v.granted → v.node.disk.Bars T
  unique : ∀ T d d', (T, d) ∈ v.granted → (T, d') ∈ v.granted → d = d'

variable {v : Voter} {ok : Nat → Bool} {request : RequestVoteRequest}

/-- Votes granted before stay barred in memory. -/
theorem Inv.memory_kept (h : v.Inv) {T d : Nat} (hg : (T, d) ∈ v.granted) :
    (v.node.onRequestVoteRequested (.faulty ok) request).2.memory.Bars T := by
  have hbar := h.memory T d hg
  by_cases hm : v.node.isValidNode request.candidateId = true
  · rw [(Node.onRequestVoteRequested_memory ok hm).2]
    rcases hbar with hlt | ⟨heq, hvoted⟩
    · exact .inl (Nat.lt_of_lt_of_le hlt (Nat.le_max_left ..))
    · rcases Nat.lt_or_ge v.node.store.currentTerm request.term with hnew | hold
      · refine .inl (Nat.lt_of_lt_of_le ?_ (Nat.le_max_right ..))
        exact Nat.lt_of_le_of_lt (Nat.le_of_eq heq) hnew
      · have hstay : (v.node.core.observe request.term).voted = true := by
          rw [Core.observe_of_le (c := v.node.core) hold]
          exact hvoted
        refine .inr ⟨heq.trans (Nat.max_eq_left hold).symm, ?_⟩
        simp only [hstay, Bool.true_or]
  · have hsame : v.node.onRequestVoteRequested (.faulty ok) request = ({}, v.node) :=
      if_pos (by simpa using hm)
    rw [hsame]
    exact hbar

/-- Votes granted before stay barred on disk. -/
theorem Inv.disk_kept (h : v.Inv) (ht : request.term < 2 ^ 64) (hp : v.Preserves ok request)
    {T d : Nat} (hg : (T, d) ∈ v.granted) :
    (v.node.onRequestVoteRequested (.faulty ok) request).2.disk.Bars T := by
  have hbar := h.disk T d hg
  by_cases hm : v.node.isValidNode request.candidateId = true
  · rw [Node.onRequestVoteRequested_disk ok hm ht]
    split
    · rename_i hnew
      have hle : T < request.term := by
        rcases h.memory T d hg with hlt | ⟨heq, -⟩
        · exact Nat.lt_trans hlt hnew
        · exact Nat.lt_of_le_of_lt (Nat.le_of_eq heq) hnew
      -- the new term is on disk, or the disk stays in the older one
      cases h0 : ok v.node.store.attempts with
      | true =>
        rw [Ballot.setTerm_true]
        split
        · exact .inl (by simpa using hle)
        · exact .inl (by simpa using hle)
      | false =>
        rw [Ballot.setTerm_false]
        rcases hbar with hlt | ⟨heq, hvoted⟩
        · split
          · exact .inl (by simpa using hlt)
          · exact .inl (by simpa using hlt)
        · rcases hp hm hnew ⟨_, hg, heq⟩ with h1 | h2 | ⟨hgrant, h4⟩
          · rw [h0] at h1
            cases h1
          · rw [h2, Ballot.setVoted_false]
            split
            · exact Ballot.Bars.setVoted (.inr ⟨heq, hvoted⟩) _
            · exact .inr ⟨heq, hvoted⟩
          · rw [if_pos hgrant, h4]
            exact .inr ⟨by simpa using heq, rfl⟩
    · split
      · exact hbar.setVoted _
      · exact hbar
  · have hsame : v.node.onRequestVoteRequested (.faulty ok) request = ({}, v.node) :=
      if_pos (by simpa using hm)
    rw [hsame]
    exact hbar

/-- A vote that is recorded is barred on disk. -/
theorem bars_of_records (ht : request.term < 2 ^ 64) (hg : v.node.WouldGrant request)
    (hr : Records ok request v.node) :
    (v.node.onRequestVoteRequested (.faulty ok) request).2.disk.Bars
      (max v.node.store.currentTerm request.term) := by
  rw [Node.onRequestVoteRequested_disk ok hg.1 ht, if_pos hg]
  unfold Records at hr
  simp only at hr ⊢
  split
  · rename_i hnew
    rw [if_pos hnew] at hr
    rw [Nat.max_eq_right (Nat.le_of_lt hnew)]
    rcases hr with ⟨hterm, hflag⟩ | ⟨h0, hlt⟩
    · refine .inr ⟨?_, ?_⟩
      · rw [Ballot.setVoted_term, Ballot.setVoted_term]
        rcases hterm with h0 | heq
        · rw [h0, Ballot.setTerm_true]
        · unfold Ballot.setTerm
          split
          · rfl
          · exact heq.symm
      · rcases hflag with h4 | ⟨h2, hvoted⟩
        · rw [h4]
          rfl
        · rw [h2, Ballot.setVoted_false]
          unfold Ballot.setVoted
          split
          · rfl
          · rwa [Ballot.setTerm_voted]
    · rw [h0, Ballot.setTerm_false]
      exact .inl (by simpa using hlt)
  · rename_i hold
    rw [if_neg hold] at hr
    rw [Nat.max_eq_left (Nat.le_of_not_lt hold)]
    rcases hr with ⟨heq, hflag⟩ | hlt
    · refine .inr ⟨?_, ?_⟩
      · rw [Ballot.setVoted_term]
        exact heq.symm
      · rcases hflag with h1 | hvoted
        · rw [h1]
          rfl
        · unfold Ballot.setVoted
          split
          · rfl
          · exact hvoted
    · exact .inl (by simpa using hlt)

/-- A vote is granted in a term in which none was granted before. -/
theorem Inv.fresh (h : v.Inv) (hg : v.node.WouldGrant request) {d : Nat} :
    (max v.node.store.currentTerm request.term, d) ∉ v.granted := by
  intro hmem
  have hfree := ((Core.grants_observe v.node.core request).1 hg.2).1
  rcases h.memory _ _ hmem with hlt | ⟨heq, hvoted⟩
  · exact Nat.not_lt_of_le (Nat.le_max_left ..) hlt
  · have heq : max v.node.store.currentTerm request.term = v.node.store.currentTerm := heq
    rcases hfree with hlt | ⟨-, hnot⟩
    · have hlt : v.node.store.currentTerm < request.term := hlt
      omega
    · rw [show v.node.core.voted = true from hvoted] at hnot
      cases hnot

/-- **A safe step keeps every vote barred.** -/
theorem Inv.step (h : v.Inv) (ids : List Nat) (me : Nat) {event : VoterEvent}
    (ht : event.Typed) (hs : v.Safe event) : (v.step ids me event).Inv := by
  cases event with
  | crash ok request reopenOk =>
    obtain ⟨h1, h2⟩ := Node.create_ballot reopenOk ids me
      (v.node.onRequestVoteRequested (.faulty ok) request).2
    refine ⟨fun T d hg => ?_, fun T d hg => ?_, h.unique⟩
    · exact h1 ▸ h.disk_kept ht hs hg
    · exact h2 ▸ h.disk_kept ht hs hg
  | handle ok request =>
    have hkept : ∀ T d, (T, d) ∈ v.granted →
        (v.node.onRequestVoteRequested (.faulty ok) request).2.memory.Bars T ∧
          (v.node.onRequestVoteRequested (.faulty ok) request).2.disk.Bars T :=
      fun T d hg => ⟨h.memory_kept hg, h.disk_kept ht hs.1 hg⟩
    simp only [Voter.step]
    by_cases hg : v.node.WouldGrant request
    · -- one more vote
      obtain ⟨hres, hmem⟩ := Node.onRequestVoteRequested_memory ok hg.1
      have hdisk := bars_of_records ht hg (hs.2 hg)
      simp only [hg, decide_true, Bool.or_true] at hres hmem
      simp only [hres, if_true]
      refine ⟨fun T d hm => ?_, fun T d hm => ?_, fun T d d' hm hm' => ?_⟩
      · rcases List.mem_append.1 hm with hm | hm
        · exact (hkept T d hm).1
        · cases List.mem_singleton.1 hm
          rw [hmem]
          exact .inr ⟨rfl, rfl⟩
      · rcases List.mem_append.1 hm with hm | hm
        · exact (hkept T d hm).2
        · cases List.mem_singleton.1 hm
          exact hdisk
      · rcases List.mem_append.1 hm with hm | hm <;> rcases List.mem_append.1 hm' with hm' | hm'
        · exact h.unique T d d' hm hm'
        · cases List.mem_singleton.1 hm'
          exact absurd hm (h.fresh hg)
        · cases List.mem_singleton.1 hm
          exact absurd hm' (h.fresh hg)
        · cases List.mem_singleton.1 hm
          cases List.mem_singleton.1 hm'
          rfl
    · -- no vote
      have hnone : (v.node.onRequestVoteRequested (.faulty ok) request).1.voteGranted = false := by
        by_cases hm : v.node.isValidNode request.candidateId = true
        · rw [(Node.onRequestVoteRequested_memory ok hm).1]
          simp [hg]
        · unfold Node.onRequestVoteRequested
          rw [if_pos (by simpa using hm)]
      simp only [hnone, Bool.false_eq_true, if_false, List.append_nil]
      exact ⟨fun T d hm => (hkept T d hm).1, fun T d hm => (hkept T d hm).2, h.unique⟩

end Voter

/-- **A granted vote is durable where no step is unsafe.** From any node on, through any requests,
crashes and restarts, whatever `Put`s fail: if every step is safe, two votes granted in one term are
for the same candidate. -/
theorem granted_votes_durable {n : Node} {ids : List Nat} {me : Nat} {h : List Voter}
    (hr : (Voter.system ids me n).Run (fun v event => event.Typed ∧ v.Safe event) h) :
    ∀ v ∈ h, ∀ T d d', (T, d) ∈ v.granted → (T, d') ∈ v.granted → d = d' := by
  have hinv : ∀ v ∈ h, v.Inv := by
    refine hr.forall_mem (P := Voter.Inv) ?_ ?_
    · exact ⟨fun _ _ hm => absurd hm List.not_mem_nil, fun _ _ hm => absurd hm List.not_mem_nil,
        fun _ _ _ hm => absurd hm List.not_mem_nil⟩
    · intro v event v' hv hsafe hstep
      cases hstep
      exact hv.step ids me hsafe.1 hsafe.2
  exact fun v hv => (hinv v hv).unique

/-- Node 0 of three grants a vote to node 1 while the `Put` of `voted_for` fails, crashes, and
refuses node 2. -/
theorem granted_votes_durable_restart : ∃ h : List Voter,
    (∀ v ∈ h, ∀ T d d', (T, d) ∈ v.granted → (T, d') ∈ v.granted → d = d') ∧
      h.map (·.granted) = [[(1, 1)], [(1, 1)], [(1, 1)], []] := by
  obtain ⟨h, hr, hc⟩ := Lib.System.exists_run
    (S := Voter.system [0, 1, 2] 0 (Node.create .plain [0, 1, 2] 0 .empty))
    (fun v event => event.Typed ∧ v.Safe event)
    [.handle (fun i => i != 3) ⟨1, 1, 0, 0⟩, .crash (fun _ => false) ⟨1, 2, 0, 0⟩ (fun _ => true),
      .handle (fun _ => true) ⟨1, 2, 0, 0⟩]
    (fun h => h.map (·.granted) = [[(1, 1)], [(1, 1)], [(1, 1)], []])
    (by decide +kernel)
  exact ⟨h, granted_votes_durable hr, by simpa using hc⟩

/-- The `Put` of `voted` fails while node 0 grants its vote to node 1; after a crash it grants it
to node 2, in the same term. -/
theorem granted_vote_forgotten : ∃ h : List Voter,
    (Voter.system [0, 1, 2] 0 (Node.create .plain [0, 1, 2] 0 .empty)).Run
        (fun _ event => event.Typed) h ∧
      ∃ v ∈ h, (1, 1) ∈ v.granted ∧ (1, 2) ∈ v.granted := by
  obtain ⟨h, hr, hc⟩ := Lib.System.exists_run
    (S := Voter.system [0, 1, 2] 0 (Node.create .plain [0, 1, 2] 0 .empty))
    (fun _ event => event.Typed)
    [.handle (fun i => i != 4) ⟨1, 1, 0, 0⟩, .crash (fun _ => false) ⟨1, 2, 0, 0⟩ (fun _ => true),
      .handle (fun _ => true) ⟨1, 2, 0, 0⟩]
    (fun h => decide (∃ v ∈ h, (1, 1) ∈ v.granted ∧ (1, 2) ∈ v.granted))
    (by decide +kernel)
  exact ⟨h, hr, of_decide_eq_true hc⟩

end Foros

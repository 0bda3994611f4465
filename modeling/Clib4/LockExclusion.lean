import Clib4.Base.Machine
import Clib4.RecordLocking

/-!
# Exclusion of record locks

Whatever the processes do, and in whatever order their attempts come, two regions of one file
that overlap and belong to different processes are both shared.  Every step changes the lock
table in one of four ways, if it changes it at all; `LockStep.locks_cases` says which, and the
invariant is a case analysis over it.

Giving up a lock, on the other hand, does not work: `fcntl` answers every request that is not
for a lock with a failure.

## Main definitions

* `LockedRegion.Compatible`, `FileLockNode.Exclusive` — the invariant.

## Main results

* `record_locks_exclusive` — **overlapping regions of different processes are shared.**
* `unlock_fails` — **no request to give up a lock does so.**
-/

namespace Clib4

open List Function

/-! ### Compatible regions -/

/-- Two regions that overlap and have different owners are both shared. -/
def LockedRegion.Compatible (r r' : LockedRegion) : Prop :=
  r.start ≤ r'.stop → r'.start ≤ r.stop → r.owner ≠ r'.owner → r.shared = true ∧ r'.shared = true

/-- Any two regions of the node are compatible. -/
def FileLockNode.Exclusive (fln : FileLockNode) : Prop :=
  ∀ r ∈ fln.regions, ∀ r' ∈ fln.regions, r.Compatible r'

theorem LockedRegion.Compatible.symm {r r' : LockedRegion} (h : r.Compatible r') :
    r'.Compatible r := by
  intro h₁ h₂ howner
  exact (h h₂ h₁ howner.symm).symm

theorem LockedRegion.compatible_self (r : LockedRegion) : r.Compatible r :=
  fun _ _ howner => absurd rfl howner

/-- A region that no collision is found for is compatible with all that are there. -/
theorem compatible_of_findCollidingRegion {regions : List LockedRegion} {new : LockedRegion}
    (h : findCollidingRegion regions new.owner new.start new.stop new.shared = none) :
    ∀ r ∈ regions, r.Compatible new := by
  intro r hr h₁ h₂ howner
  rw [findCollidingRegion, find?_eq_none] at h
  have hno := h r hr
  simp only [LockedRegion.overlaps, Bool.and_eq_true, decide_eq_true_eq, bne_iff_ne,
    Bool.or_eq_true, Bool.not_eq_true'] at hno
  cases hshared : new.shared with
  | false => exact absurd ⟨⟨⟨h₁, h₂⟩, .inl hshared⟩, howner⟩ hno
  | true =>
    cases hr' : r.shared with
    | false => exact absurd ⟨⟨⟨h₁, h₂⟩, .inr hr'⟩, howner⟩ hno
    | true => exact ⟨rfl, rfl⟩

namespace FileLockNode

variable {fln : FileLockNode}

theorem Exclusive.append (h : fln.Exclusive) {new : LockedRegion}
    (hnew : ∀ r ∈ fln.regions, r.Compatible new) :
    FileLockNode.Exclusive { fln with regions := fln.regions ++ [new] } := by
  intro r hr r' hr'
  simp only [mem_append, mem_singleton] at hr hr'
  rcases hr with hr | rfl <;> rcases hr' with hr' | rfl
  · exact h r hr r' hr'
  · exact hnew r hr
  · exact (hnew r' hr').symm
  · exact LockedRegion.compatible_self _

theorem Exclusive.filter (h : fln.Exclusive) (p : LockedRegion → Bool) :
    FileLockNode.Exclusive { fln with regions := fln.regions.filter p } := by
  intro r hr r' hr'
  exact h r (mem_of_mem_filter hr) r' (mem_of_mem_filter hr')

theorem exclusive_singleton (file : FileId) (r : LockedRegion) :
    FileLockNode.Exclusive { file := file, regions := [r] } := by
  intro a ha b hb
  rw [mem_singleton] at ha hb
  rw [ha, hb]
  exact r.compatible_self

end FileLockNode

/-! ### The lock table -/

namespace LockTable

variable {t : LockTable} {file : FileId} {lrn : LockedRegion}

theorem mem_replaceNode {f : FileLockNode → LockTable} {fln : FileLockNode}
    (h : fln ∈ replaceNode file f t) :
    fln ∈ t ∨ ∃ old, t.findNode file = some old ∧ fln ∈ f old := by
  fun_induction replaceNode file f t with
  | case1 => cases h
  | case2 a t ha =>
    rcases mem_append.1 h with h | h
    · exact .inr ⟨a, by simp [findNode, ha], h⟩
    · exact .inl (mem_cons_of_mem _ h)
  | case3 a t ha ih =>
    rcases mem_cons.1 h with rfl | h
    · exact .inl mem_cons_self
    · exact (ih h).imp (mem_cons_of_mem _) fun ⟨old, hold, h⟩ =>
        ⟨old, by simpa [findNode, ha] using hold, h⟩

theorem mem_of_findNode {fln : FileLockNode} (h : t.findNode file = some fln) : fln ∈ t :=
  mem_of_find?_eq_some h

/-- No two nodes are for one file. -/
def OneNodePerFile (t : LockTable) : Prop := t.Pairwise fun a b => a.file.same b.file = false

theorem OneNodePerFile.replaceNode (h : t.OneNodePerFile) (file : FileId)
    {f : FileLockNode → LockTable}
    (hf : ∀ fln, f fln = [] ∨ ∃ new, f fln = [new] ∧ new.file = fln.file) :
    (LockTable.replaceNode file f t).OneNodePerFile := by
  fun_induction LockTable.replaceNode file f t with
  | case1 => exact List.Pairwise.nil
  | case2 a t _ =>
    obtain ⟨ha, ht⟩ := pairwise_cons.1 h
    rcases hf a with hnone | ⟨new, hnew, hfile⟩
    · rw [hnone]
      exact ht
    · rw [hnew]
      exact pairwise_cons.2 ⟨by rw [hfile]; exact ha, ht⟩
  | case3 a t _ ih =>
    obtain ⟨ha, ht⟩ := pairwise_cons.1 h
    refine pairwise_cons.2 ⟨?_, ih ht⟩
    intro b hb
    rcases mem_replaceNode hb with hb | ⟨old, hold, hb⟩
    · exact ha b hb
    · rcases hf old with hnone | ⟨new, hnew, hfile⟩
      · rw [hnone] at hb
        cases hb
      · rw [hnew, mem_singleton] at hb
        rw [hb, hfile]
        exact ha old (mem_of_findNode hold)

theorem OneNodePerFile.append (h : t.OneNodePerFile) (hnone : t.findNode file = none) :
    OneNodePerFile (t ++ [{ file := file, regions := [lrn] }]) := by
  refine pairwise_append.2 ⟨h, pairwise_singleton _ _, ?_⟩
  intro a ha b hb
  rw [mem_singleton] at hb
  rw [hb]
  rw [findNode, find?_eq_none] at hnone
  exact Bool.eq_false_iff.2 (hnone a ha)

theorem OneNodePerFile.add (h : t.OneNodePerFile) (file : FileId) (lrn : LockedRegion) :
    (t.add file lrn).OneNodePerFile := by
  unfold LockTable.add
  split
  case h_1 => exact h.replaceNode file fun fln => .inr ⟨_, rfl, rfl⟩
  case h_2 hnone => exact h.append hnone

theorem OneNodePerFile.removeRegions (h : t.OneNodePerFile) (file : FileId)
    (p : LockedRegion → Bool) : (t.removeRegions file p).OneNodePerFile := by
  refine h.replaceNode file fun fln => ?_
  dsimp only
  split
  · exact .inl rfl
  · exact .inr ⟨_, rfl, rfl⟩

/-- What a step can do to the lock table.  A node is added beside those that are there when the
file has none, or when the system claims that the file does not exist. -/
inductive Changed (served : Prop) (t : LockTable) : LockTable → Prop
  | same : Changed served t t
  | add (file : FileId) (lrn : LockedRegion)
      (hfree : ∀ fln, t.findNode file = some fln →
        findCollidingRegion fln.regions lrn.owner lrn.start lrn.stop lrn.shared = none) :
      Changed served t (t.add file lrn)
  | node (file : FileId) (lrn : LockedRegion) (hnone : served → t.findNode file = none) :
      Changed served t (t ++ [{ file := file, regions := [lrn] }])
  | remove (file : FileId) (p : LockedRegion → Bool) : Changed served t (t.removeRegions file p)

/-- What holds of every node is kept if it holds of a node with a single region, and if a node
keeps it that gets a region, or that loses some of its regions. -/
theorem Changed.forall_mem {served : Prop} {t' : LockTable} (h : Changed served t t')
    {P : FileLockNode → Prop} (ht : ∀ fln ∈ t, P fln) (hnew : ∀ file lrn, P ⟨file, [lrn]⟩)
    (hadd : ∀ fln lrn, P fln →
      findCollidingRegion fln.regions lrn.owner lrn.start lrn.stop lrn.shared = none →
      P { fln with regions := fln.regions ++ [lrn] })
    (hfilter : ∀ fln p, P fln → fln.regions.filter p ≠ [] →
      P { fln with regions := fln.regions.filter p }) :
    ∀ fln ∈ t', P fln := by
  intro fln hfln
  have hnode : ∀ {file lrn}, fln ∈ t ++ [⟨file, [lrn]⟩] → P fln := by
    intro file lrn hmem
    rcases mem_append.1 hmem with hmem | hmem
    · exact ht fln hmem
    · exact mem_singleton.1 hmem ▸ hnew file lrn
  cases h with
  | same => exact ht fln hfln
  | add file lrn hfree =>
    unfold LockTable.add at hfln
    split at hfln
    · rcases mem_replaceNode hfln with hfln | ⟨old, hold, hfln⟩
      · exact ht fln hfln
      · rw [mem_singleton.1 hfln]
        exact hadd old lrn (ht old (mem_of_findNode hold)) (hfree old hold)
    · exact hnode hfln
  | node => exact hnode hfln
  | remove file p =>
    rcases mem_replaceNode hfln with hfln | ⟨old, hold, hfln⟩
    · exact ht fln hfln
    · dsimp only at hfln
      split at hfln
      · cases hfln
      case isFalse hne =>
        rw [mem_singleton.1 hfln]
        exact hfilter old _ (ht old (mem_of_findNode hold)) (by simpa using hne)

theorem Changed.exclusive {served : Prop} {t' : LockTable} (h : Changed served t t')
    (ht : ∀ fln ∈ t, fln.Exclusive) : ∀ fln ∈ t', fln.Exclusive :=
  h.forall_mem ht FileLockNode.exclusive_singleton
    (fun _ _ hfln hfree => hfln.append (compatible_of_findCollidingRegion hfree))
    fun _ p hfln _ => hfln.filter p

theorem Changed.oneNodePerFile {served : Prop} {t' : LockTable} (h : Changed served t t')
    (hserved : served) (ht : t.OneNodePerFile) : t'.OneNodePerFile := by
  cases h with
  | same => exact ht
  | add file lrn hfree => exact ht.add file lrn
  | node file lrn hnone => exact ht.append (hnone hserved)
  | remove file p => exact ht.removeRegions file p

end LockTable

/-! ### What the functions do -/

theorem result_of_lockRequest {os : LockAnswers} {cmd : LockCmd} {l : Flock} {info : FileInfo}
    {reply : CallReply} (h : lockRequest os cmd l info = .error reply) : reply.result = -1 := by
  unfold lockRequest at h
  repeat' split at h
  all_goals cases h
  all_goals rfl

theorem lockRequest_eq_ok {os : LockAnswers} {cmd : LockCmd} {l : Flock} {info : FileInfo}
    {range : ℤ × ℤ} (h : lockRequest os cmd l info = .ok range) :
    cmd ≠ .getlk ∧ l.type ≠ fUnlck ∧ lockRange l info = some range := by
  unfold lockRequest at h
  split at h
  case isTrue hlock =>
    repeat' split at h
    all_goals cases h
    exact ⟨hlock.1, hlock.2, by assumption⟩
  case isFalse => cases h

namespace LockWorld

variable {w w' : LockWorld} {os : LockAnswers} {pid slot : ℕ} {l : Flock} {fd : ℤ}

@[simp] theorem setCleanup_info : (w.setCleanup pid slot).info pid slot = w.info pid slot := by
  simp [info, entry, setCleanup, setTable]

theorem mark_eq_ok {b : Bool} (h : w.mark b pid slot = .ok w') :
    ∃ t, (w.process pid).table.mark b slot = some t ∧ w' = w.setTable pid t := by
  unfold mark at h
  split at h
  · cases h
  case h_2 t ht =>
    cases h
    exact ⟨t, ht, rfl⟩

theorem locks_grant {locks : LockTable} (h : w.grant pid slot locks = .ok w') :
    w'.locks = locks := by
  obtain ⟨t, -, rfl⟩ := mark_eq_ok h
  rfl

theorem map_eq_ok {α β : Type} {x : Except Fault α} {f : α → β} {b : β}
    (h : x.map f = .ok b) : ∃ a, x = .ok a ∧ f a = b := by
  cases x with
  | error e => cases h
  | ok a => exact ⟨a, rfl, Except.ok.inj h⟩

/-- **What the `F_SETLK` branch does**: it fails, or it adds a region that collides with none, or
a node for a file that has none. -/
theorem setlk_cases {start stop : ℤ} {reply : CallReply}
    (h : w.setlk os pid slot l start stop = .ok (w', reply)) :
    (w' = w ∧ reply.result = -1) ∨ ∃ locks, w.grant pid slot locks = .ok w' ∧
      ((locks = w.locks.add (w.info pid slot).id ⟨start, stop, l.len, pid, l.type == fRdlck⟩ ∧
          ∀ fln, w.locks.findNode (w.info pid slot).id = some fln →
            findCollidingRegion fln.regions pid start stop (l.type == fRdlck) = none) ∨
        (locks = w.locks ++ [⟨(w.info pid slot).id,
            [⟨start, stop, l.len, pid, l.type == fRdlck⟩]⟩] ∧
          (os.find ≠ .error .objectNotFound → w.locks.findNode (w.info pid slot).id = none))) := by
  unfold setlk at h
  dsimp only at h
  split at h
  · cases h
    exact .inl ⟨rfl, rfl⟩
  split at h
  · cases h
    exact .inl ⟨rfl, rfl⟩
  split at h
  case h_1 fln hfind =>
    split at h
    · cases h
      exact .inl ⟨rfl, rfl⟩
    case isFalse hfree =>
      obtain ⟨w₁, hgrant, heq⟩ := map_eq_ok h
      cases heq
      refine .inr ⟨_, hgrant, .inl ⟨rfl, ?_⟩⟩
      intro fln' hfln'
      unfold findByHandle at hfind
      split at hfind
      · cases hfind
      · rw [hfln'] at hfind
        cases hfind
        simpa using hfree
  case h_2 ioErr hfind =>
    split at h
    · cases h
      exact .inl ⟨rfl, rfl⟩
    case isFalse hnot =>
      obtain ⟨w₁, hgrant, heq⟩ := map_eq_ok h
      cases heq
      refine .inr ⟨_, hgrant, .inr ⟨rfl, ?_⟩⟩
      intro hserved
      unfold findByHandle at hfind
      split at hfind
      case h_1 e he =>
        cases hfind
        rw [not_not] at hnot
        exact absurd (he.trans (by rw [hnot])) hserved
      case h_2 =>
        split at hfind
        · cases hfind
        · assumption

/-- The checks of `fcntl` find the original of a descriptor, or fail. -/
theorem fcntlChecks_spec {r : ℕ ⊕ CallReply} (h : w.fcntlChecks pid fd l = .ok r) :
    r.elim (fun slot => (w.process pid).table.getFileDescriptor fd = some slot)
      fun reply => reply.result = -1 := by
  unfold fcntlChecks at h
  dsimp only at h
  split at h
  · cases h
  split at h
  · cases h
    rfl
  split at h
  · cases h
    rfl
  case h_2 slot hget =>
    split_ifs at h <;> cases h
    case neg => exact hget
    all_goals rfl

/-- **What `fcntl` does with `F_SETLK` or `F_GETLK`**: it fails, in its checks or once the entry
has the cleanup function, or it tries to lock a range. -/
theorem fcntlLock_cases {cmd : LockCmd} {r : LockReply} (hcmd : cmd ≠ .setlkw)
    (h : w.fcntlLock os cmd pid fd l = .ok (w', r)) :
    (r.reply.result = -1 ∧ r.flock = l ∧
      (w' = w ∨ ∃ slot, w.fcntlChecks pid fd l = .ok (.inl slot) ∧ w' = w.setCleanup pid slot)) ∨
    (cmd = .setlk ∧ l.type ≠ fUnlck ∧ ∃ slot start stop,
      w.fcntlChecks pid fd l = .ok (.inl slot) ∧
      lockRequest os .setlk l (w.info pid slot) = .ok (start, stop) ∧
      (w.setCleanup pid slot).setlk os pid slot l start stop = .ok (w', r.reply)) := by
  unfold fcntlLock at h
  split at h
  · cases h
  case h_2 reply hchecks =>
    cases h
    exact .inl ⟨fcntlChecks_spec hchecks, rfl, .inl rfl⟩
  case h_3 slot hchecks =>
    simp only [handleRecordLocking, setCleanup_info] at h
    split at h
    case h_1 reply hreq =>
      cases h
      exact .inl ⟨result_of_lockRequest hreq, rfl, .inr ⟨slot, hchecks, rfl⟩⟩
    case h_2 start stop hreq =>
      obtain ⟨hgetlk, hunlck, -⟩ := lockRequest_eq_ok hreq
      obtain rfl : cmd = .setlk := by
        cases cmd with
        | getlk => exact absurd rfl hgetlk
        | setlk => rfl
        | setlkw => exact absurd rfl hcmd
      rw [if_neg hunlck, if_pos rfl] at h
      obtain ⟨⟨w₁, reply⟩, hsetlk, heq⟩ := map_eq_ok h
      cases heq
      exact .inr ⟨rfl, hunlck, slot, start, stop, hchecks, hreq, hsetlk⟩

/-- **What `fcntl` does with `F_SETLKW`**, up to its polling loop. -/
theorem fcntlSetlkw_cases {reply : Option CallReply}
    (h : w.fcntlSetlkw os pid fd l = .ok (w', reply)) :
    (reply ≠ none ∧ (w' = w ∨ ∃ slot, w.fcntlChecks pid fd l = .ok (.inl slot) ∧
      w' = w.setCleanup pid slot)) ∨
    ∃ slot start stop, w.fcntlChecks pid fd l = .ok (.inl slot) ∧
      lockRequest os .setlkw l (w.info pid slot) = .ok (start, stop) ∧
      w' = { w.setCleanup pid slot with
              pending := update w.pending pid (some
                ⟨slot, (w.info pid slot).id, start, stop, l.len, l.type == fRdlck⟩) } := by
  unfold fcntlSetlkw at h
  split at h
  · cases h
  · cases h
    exact .inl ⟨Option.some_ne_none _, .inl rfl⟩
  case h_3 slot hchecks =>
    simp only [setCleanup_info] at h
    split at h
    · cases h
      exact .inl ⟨Option.some_ne_none _, .inr ⟨slot, hchecks, rfl⟩⟩
    case h_2 start stop hreq =>
      split at h
      · cases h
        exact .inl ⟨Option.some_ne_none _, .inr ⟨slot, hchecks, rfl⟩⟩
      split at h
      · cases h
        exact .inl ⟨Option.some_ne_none _, .inr ⟨slot, hchecks, rfl⟩⟩
      · cases h
        exact .inr ⟨slot, start, stop, hchecks, hreq, rfl⟩

/-- **What an attempt does**: nothing, or the process stops waiting with a failure, or it adds a
region that collides with none. -/
theorem poll_cases {semaphore : Bool} {reply : Option CallReply}
    (h : w.poll semaphore pid = .ok (w', reply)) :
    (w' = w ∧ reply = none) ∨ ∃ p, w.pending pid = some p ∧
      ((w' = { w with pending := update w.pending pid none } ∧
          ∃ r, reply = some r ∧ r.result = -1) ∨
        ∃ t, (w.process pid).table.mark true p.slot = some t ∧ reply = some { result := 0 } ∧
          w' = LockWorld.setTable
            { w with locks := w.locks.add p.file ⟨p.start, p.stop, p.length, pid, p.shared⟩
                     pending := update w.pending pid none } pid t ∧
          ∀ fln, w.locks.findNode p.file = some fln →
            findCollidingRegion fln.regions pid p.start p.stop p.shared = none) := by
  unfold poll at h
  split at h
  · cases h
    exact .inl ⟨rfl, rfl⟩
  case h_2 p hp =>
    split at h
    · cases h
      exact .inr ⟨p, hp, .inl ⟨rfl, _, rfl, rfl⟩⟩
    split at h
    case h_1 fln hfln =>
      split at h
      · cases h
        exact .inl ⟨rfl, rfl⟩
      case isFalse hfree =>
        obtain ⟨w₁, hgrant, heq⟩ := map_eq_ok h
        cases heq
        obtain ⟨t, ht, rfl⟩ := mark_eq_ok hgrant
        refine .inr ⟨p, hp, .inr ⟨t, ht, rfl, rfl, ?_⟩⟩
        rintro _ hfln'
        cases hfln.symm.trans hfln'
        simpa using hfree
    case h_2 hnone =>
      obtain ⟨w₁, hgrant, heq⟩ := map_eq_ok h
      cases heq
      obtain ⟨t, ht, rfl⟩ := mark_eq_ok hgrant
      refine .inr ⟨p, hp, .inr ⟨t, ht, rfl, rfl, ?_⟩⟩
      rintro _ hfln'
      cases hnone.symm.trans hfln'

/-- **What cleaning up does**: it takes the marks off a group at most, and only if its file is
being closed. -/
theorem cleanup_cases (served : Prop) (h : w.cleanup os pid slot = .ok w') :
    ∃ locks, LockTable.Changed served w.locks locks ∧ (w' = { w with locks := locks } ∨
      (w.entry pid slot).closesFile = true ∧
        ∃ t, (w.process pid).table.mark false slot = some t ∧
          w' = LockWorld.setTable { w with locks := locks } pid t) := by
  unfold cleanup at h
  dsimp only at h
  split at h
  case isFalse =>
    cases h
    exact ⟨w.locks, .same, .inl rfl⟩
  case isTrue hcloses =>
    simp only [Bool.and_eq_true] at hcloses
    unfold cleanupLockedRecords at h
    split at h
    case isFalse =>
      cases h
      exact ⟨w.locks, .same, .inl rfl⟩
    case isTrue =>
      split at h
      · obtain ⟨t, ht, rfl⟩ := mark_eq_ok h
        exact ⟨_, .remove _ _, .inr ⟨hcloses.1.2, t, ht, rfl⟩⟩
      · split at h
        · obtain ⟨t, ht, rfl⟩ := mark_eq_ok h
          exact ⟨w.locks, .same, .inr ⟨hcloses.1.2, t, ht, rfl⟩⟩
        · cases h
          exact ⟨w.locks, .same, .inl rfl⟩

/-! ### Steps -/

theorem fcntlLock_changed {cmd : LockCmd} {reply : LockReply} (hcmd : cmd ≠ .setlkw)
    (h : w.fcntlLock os cmd pid fd l = .ok (w', reply)) :
    LockTable.Changed (os.find ≠ .error .objectNotFound) w.locks w'.locks := by
  rcases fcntlLock_cases hcmd h with
    ⟨-, -, rfl | ⟨slot, -, rfl⟩⟩ | ⟨-, -, slot, start, stop, -, -, hsetlk⟩
  · exact .same
  · exact .same
  · rcases setlk_cases hsetlk with ⟨rfl, -⟩ | ⟨locks, hgrant, ⟨rfl, hfree⟩ | ⟨rfl, hnone⟩⟩
    · exact .same
    · rw [locks_grant hgrant]
      exact .add _ _ hfree
    · rw [locks_grant hgrant]
      exact .node _ _ hnone

theorem poll_changed {semaphore : Bool} {reply : Option CallReply} (served : Prop)
    (h : w.poll semaphore pid = .ok (w', reply)) :
    LockTable.Changed served w.locks w'.locks := by
  rcases poll_cases h with ⟨rfl, -⟩ | ⟨p, -, ⟨rfl, -⟩ | ⟨t, -, -, rfl, hfree⟩⟩
  · exact .same
  · exact .same
  · exact .add _ _ hfree

theorem close_changed {fdOs : FdAnswers} {reply : CallReply} (served : Prop)
    (h : w.close fdOs os pid fd = .ok (w', reply)) :
    LockTable.Changed served w.locks w'.locks := by
  unfold close at h
  split at h
  · cases h
    exact .same
  split at h
  · cases h
  case h_2 w₁ hcleanup =>
    obtain ⟨⟨s, r⟩, -, heq⟩ := map_eq_ok h
    cases heq
    obtain ⟨locks, hchanged, rfl | ⟨-, t, -, rfl⟩⟩ := cleanup_cases served hcleanup
    · exact hchanged
    · exact hchanged

end LockWorld

namespace LockStep

/-- The system does not claim that a file which is open does not exist. -/
def Served : LockStep → Prop
  | .setlk os _ _ _ => os.find ≠ .error .objectNotFound
  | .getlk os _ _ _ => os.find ≠ .error .objectNotFound
  | _ => True

theorem locks_cases {w w' : LockWorld} {call : LockStep} {reply : Option CallReply}
    (h : call.step w = .ok (w', reply)) :
    LockTable.Changed call.Served w.locks w'.locks := by
  cases call with
  | setlk os pid fd l | getlk os pid fd l =>
    obtain ⟨⟨w₁, r⟩, hok, heq⟩ := LockWorld.map_eq_ok h
    cases heq
    exact LockWorld.fcntlLock_changed (by decide) hok
  | setlkw os pid fd l =>
    rcases LockWorld.fcntlSetlkw_cases h with ⟨-, rfl | ⟨slot, -, rfl⟩⟩ | ⟨_, _, _, -, -, rfl⟩
    all_goals exact .same
  | poll semaphore pid => exact LockWorld.poll_changed _ h
  | abort pid =>
    simp only [step, LockWorld.abort] at h
    split at h <;> cases h <;> exact .same
  | close fdOs os pid fd =>
    obtain ⟨⟨w₁, r⟩, hok, heq⟩ := LockWorld.map_eq_ok h
    cases heq
    exact LockWorld.close_changed _ hok
  | other process files =>
    cases h
    exact .same

end LockStep

/-- The world before any lock has been asked for. -/
def LockWorld.initial (process : ℕ → FdSystem) (files : ℕ → FileInfo) : LockWorld where
  locks := []
  process := process
  files := files
  pending := fun _ => none

/-- **Record locks exclude one another.**  In every state that a run reaches, any two regions on
the list of a file that overlap and have different owners are both shared; and a file has only
one list, if the system does not claim that an open file does not exist. -/
theorem record_locks_exclusive (process : ℕ → FdSystem) (files : ℕ → FileInfo)
    (calls : List LockStep) {w : LockWorld} {replies : List (Option CallReply)}
    (h : Machine.exec LockStep.step (LockWorld.initial process files) calls = .ok (w, replies)) :
    (∀ fln ∈ w.locks, ∀ r ∈ fln.regions, ∀ r' ∈ fln.regions,
      r.start ≤ r'.stop → r'.start ≤ r.stop → r.owner ≠ r'.owner →
        r.shared = true ∧ r'.shared = true) ∧
      ((∀ call ∈ calls, call.Served) → w.locks.OneNodePerFile) := by
  constructor
  · have hinv : ∀ fln ∈ w.locks, fln.Exclusive := by
      refine Machine.invariant_of_exec (I := fun w : LockWorld => ∀ fln ∈ w.locks, fln.Exclusive)
        (P := fun _ => True) ?_ ?_ (fun _ _ => trivial) h
      · intro w call w₁ reply hw _ hok
        exact (LockStep.locks_cases hok).exclusive hw
      · intro fln hfln
        cases hfln
    exact hinv
  · intro hserved
    refine Machine.invariant_of_exec (I := fun w : LockWorld => w.locks.OneNodePerFile)
      (P := LockStep.Served) ?_ ?_ hserved h
    · intro w call w₁ reply hw hcall hok
      exact (LockStep.locks_cases hok).oneNodePerFile hcall hw
    · exact List.Pairwise.nil

/-- A process that has one file open, for reading and writing, as descriptor 3. -/
def oneFileOpen (handle : ℕ) : FdSystem where
  table :=
    { numFd := 4
      entry := fun n =>
        if n = 3 then
          { file := handle, flags := { read := true, write := true, inUse := true } }
        else {} }
  opened := {handle}
  standard := fun _ => 1

/-- Processes that have the same file open. -/
def sameFileOpen : LockWorld :=
  LockWorld.initial oneFileOpen fun _ => { id := ⟨1, [102]⟩, size := 100, position := 0 }

/-- A request about the first ten bytes of a file. -/
def firstTen (type : ℤ) : Flock := { type := type, whence := 0, start := 0, len := 10 }

/-- Two readers may lock the same bytes; a writer may not. -/
def readersAndWriter : List LockStep :=
  [.setlk {} 1 3 (firstTen fRdlck), .setlk {} 2 3 (firstTen fRdlck),
    .setlk {} 2 3 (firstTen fWrlck)]

theorem record_locks_exclusive_readers :
    ∃ w, Machine.exec LockStep.step sameFileOpen readersAndWriter
        = .ok (w, [some { result := 0 }, some { result := 0 }, some (.failed .EACCES)]) ∧
      (∀ fln ∈ w.locks, ∀ r ∈ fln.regions, ∀ r' ∈ fln.regions,
        r.start ≤ r'.stop → r'.start ≤ r.stop → r.owner ≠ r'.owner →
          r.shared = true ∧ r'.shared = true) := by
  have hexec : ∃ w, Machine.exec LockStep.step sameFileOpen readersAndWriter
      = .ok (w, [some { result := 0 }, some { result := 0 }, some (.failed .EACCES)]) := ⟨_, rfl⟩
  obtain ⟨w, hw⟩ := hexec
  exact ⟨w, hw, (record_locks_exclusive _ _ _ hw).1⟩

/-! ### Giving up a lock -/

namespace LockWorld

/-- What a request to give up a lock is for: it succeeds, and the regions of the process that
start at `start` and had the given length are gone, and no others. -/
def Unlocks (w : LockWorld) (os : LockAnswers) (pid : ℕ) (fd : ℤ) (l : Flock) (file : FileId)
    (start : ℤ) : Prop :=
  ∃ w' reply, w.fcntlLock os .setlk pid fd l = .ok (w', reply) ∧ reply.reply.result = 0 ∧
    w'.locks = w.locks.removeRegions file fun lrn =>
      lrn.owner == pid && lrn.start == start && lrn.length == l.len

variable {w w' : LockWorld} {os : LockAnswers} {pid slot : ℕ}

/-- A request to give up a lock: the call fails and only notes that the entry may have locks. -/
theorem fcntlLock_of_unlck {fd : ℤ} {l : Flock} (hl : l.type = fUnlck) {reply : LockReply}
    (h : w.fcntlLock os .setlk pid fd l = .ok (w', reply)) :
    reply.reply.result = -1 ∧ (w' = w ∨ ∃ slot, w' = w.setCleanup pid slot) := by
  rcases fcntlLock_cases (by decide) h with ⟨hres, -, rfl | ⟨slot, -, rfl⟩⟩ | ⟨-, hunlck, -⟩
  · exact ⟨hres, .inl rfl⟩
  · exact ⟨hres, .inr ⟨slot, rfl⟩⟩
  · exact absurd hl hunlck

/-- Two worlds that look the same to process `q`. -/
structure Agree (q : ℕ) (w w' : LockWorld) : Prop where
  locks : w'.locks = w.locks
  files : w'.files = w.files
  process : w'.process q = w.process q

namespace Agree

variable {q : ℕ}

section

variable (h : Agree q w w')

include h

theorem entry (slot : ℕ) : w'.entry q slot = w.entry q slot := by
  rw [LockWorld.entry, LockWorld.entry, h.process]

theorem info (slot : ℕ) : w'.info q slot = w.info q slot := by
  rw [LockWorld.info, LockWorld.info, h.entry, h.files]

theorem findByHandle (os : LockAnswers) (slot : ℕ) :
    w'.findByHandle os q slot = w.findByHandle os q slot := by
  rw [LockWorld.findByHandle, LockWorld.findByHandle, h.locks, h.info]

theorem setCleanup (slot : ℕ) : Agree q (w.setCleanup q slot) (w'.setCleanup q slot) := by
  refine ⟨h.locks, h.files, ?_⟩
  simp only [LockWorld.setCleanup, setTable, update_self, h.process, h.entry]

variable {α : Type}

/-- Whether a group can be marked depends on the table of the process only. -/
theorem mark_map (b : Bool) (slot : ℕ) (a : α) :
    (w'.mark b q slot).map (fun _ => a) = (w.mark b q slot).map (fun _ => a) := by
  rw [LockWorld.mark, LockWorld.mark, h.process]
  split <;> rfl

theorem grant_map (slot : ℕ) (locks : LockTable) (a : α) :
    (w'.grant q slot locks).map (fun _ => a) = (w.grant q slot locks).map (fun _ => a) := by
  have hlocks : Agree q { w with locks := locks } { w' with locks := locks } :=
    ⟨rfl, h.files, h.process⟩
  exact hlocks.mark_map true slot a

omit h in
theorem map_snd {x : Except Fault LockWorld} (a : α) :
    (x.map fun w => (w, a)).map Prod.snd = x.map fun _ => a := by
  cases x <;> rfl

theorem setlk_reply (os : LockAnswers) (slot : ℕ) (l : Flock) (start stop : ℤ) :
    (w'.setlk os q slot l start stop).map Prod.snd
      = (w.setlk os q slot l start stop).map Prod.snd := by
  unfold LockWorld.setlk
  simp only [h.entry, h.findByHandle, h.locks, h.info]
  split
  · rfl
  split
  · rfl
  split
  · split
    · rfl
    · rw [map_snd, map_snd, h.grant_map]
  · split
    · rfl
    · rw [map_snd, map_snd, h.grant_map]

/-- **The reply to a request for a lock** depends on the lock table, the files and the process's
own descriptors only. -/
theorem fcntlLock_reply (os : LockAnswers) (fd : ℤ) {l : Flock} (hl : l.type ≠ fUnlck) :
    (w'.fcntlLock os .setlk q fd l).map Prod.snd
      = (w.fcntlLock os .setlk q fd l).map Prod.snd := by
  have hchecks : w'.fcntlChecks q fd l = w.fcntlChecks q fd l := by
    rw [fcntlChecks, fcntlChecks, h.process]
  unfold fcntlLock
  rw [hchecks]
  split
  · rfl
  · rfl
  case h_3 slot _ =>
    have hc := h.setCleanup slot
    simp only [handleRecordLocking, hc.info, hl]
    split
    · rfl
    case h_2 start stop _ =>
      -- the reply is that of the `F_SETLK` branch
      have hmap : ∀ x : Except Fault (LockWorld × CallReply),
          (x.map fun p => (p.1, LockReply.mk p.2 l)).map Prod.snd
            = (x.map Prod.snd).map (LockReply.mk · l) := by
        intro x
        cases x <;> rfl
      exact (hmap _).trans ((congrArg _ (hc.setlk_reply os slot l start stop)).trans (hmap _).symm)

end

end Agree

theorem agree_setCleanup {q : ℕ} (hq : q ≠ pid) (slot : ℕ) : Agree q w (w.setCleanup pid slot) :=
  ⟨rfl, rfl, update_of_ne hq ..⟩

end LockWorld

/-- **No request to give up a lock does so.**  Whatever the lock table, the process, the
descriptor and the range are: the call fails, the lock table stays as it is, and a request of
another process for a lock is answered as before. -/
theorem unlock_fails (w : LockWorld) (os : LockAnswers) (pid : ℕ) (fd : ℤ) (l : Flock)
    (hl : l.type = fUnlck) :
    (∀ file start, ¬ w.Unlocks os pid fd l file start) ∧
      ∀ w' reply, w.fcntlLock os .setlk pid fd l = .ok (w', reply) →
        reply.reply.result = -1 ∧ w'.locks = w.locks ∧
        ∀ q os' fd' l', q ≠ pid → l'.type ≠ fUnlck →
          (w'.fcntlLock os' .setlk q fd' l').map Prod.snd
            = (w.fcntlLock os' .setlk q fd' l').map Prod.snd := by
  constructor
  · rintro file start ⟨w', reply, hok, hzero, -⟩
    have hfails := (LockWorld.fcntlLock_of_unlck hl hok).1
    rw [hzero] at hfails
    cases hfails
  · intro w' reply hok
    obtain ⟨hresult, hw'⟩ := LockWorld.fcntlLock_of_unlck hl hok
    refine ⟨hresult, ?_, ?_⟩
    · rcases hw' with rfl | ⟨slot, rfl⟩
      · rfl
      · rfl
    · intro q os' fd' l' hq hl'
      rcases hw' with rfl | ⟨slot, rfl⟩
      · rfl
      · exact (LockWorld.agree_setCleanup hq slot).fcntlLock_reply os' fd' hl'

theorem unlock_fails_firstTen :
    (firstTen fUnlck).type = fUnlck ∧
      ∀ file start, ¬ sameFileOpen.Unlocks {} 1 3 (firstTen fUnlck) file start :=
  ⟨rfl, (unlock_fails sameFileOpen {} 1 3 (firstTen fUnlck) rfl).1⟩

/-- A process locks ten bytes and gives them up again with the same range: the call fails, the
region stays, and another process does not get it. -/
theorem unlock_firstTen_stays :
    ∃ w, Machine.exec LockStep.step sameFileOpen
          [.setlk {} 1 3 (firstTen fWrlck), .setlk {} 1 3 (firstTen fUnlck),
            .setlk {} 2 3 (firstTen fWrlck)]
        = .ok (w, [some { result := 0 }, some { result := -1 }, some (.failed .EACCES)]) ∧
      w.locks = [⟨⟨1, [102]⟩, [⟨0, 9, 10, 1, false⟩]⟩] :=
  ⟨_, rfl, rfl⟩

end Clib4

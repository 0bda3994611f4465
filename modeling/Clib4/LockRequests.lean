import Clib4.LockExclusion

/-!
# Requests about locks

What the part of `__handle_record_locking` that all requests go through makes of them.  It ends
every request that is not for a lock, so `F_GETLK` is never answered.  And it computes the first
and the last byte of a region in 64 bits, with the `LONG_MAX` of 32 bits both for a length of zero,
which stands for all bytes from the start on, and for a last byte that does not fit.

## Main definitions

* `LockWorld.Answers` — a query answers what an attempt in the same state would meet.
* `requestRegion` — the region that is stored for a request.
* `LockedRegion.IsFor` — a region has the bytes of a request.

## Main results

* `getlk_fails` — **no query is answered.**
* `isFor_requestRegion_iff` — **which regions have the bytes of their requests.**
-/

namespace Clib4

/-! ### Queries -/

namespace LockWorld

variable (w : LockWorld) (os : LockAnswers) (pid : ℕ) (fd : ℤ) (l : Flock)

/-- `fcntl` with `F_SETLK` would give this reply. -/
def Attempts (reply : CallReply) : Prop :=
  ∃ w' flock, w.fcntlLock os .setlk pid fd l = .ok (w', ⟨reply, flock⟩)

/-- The answer describes a region of the table that an attempt collides with. -/
def Describes (answer : Flock) : Prop :=
  w.Attempts os pid fd l (.failed .EACCES) ∧
    ∃ fln ∈ w.locks, ∃ lrn ∈ fln.regions, lrn.owner ≠ pid ∧
      answer = ⟨if lrn.shared then fRdlck else fWrlck, 0, lrn.start, lrn.length, lrn.owner⟩

/-- The query leaves the table as it is, returns zero, and tells what an attempt in the same state
would meet. -/
def Answers : Prop :=
  ∃ w' reply, w.fcntlLock os .getlk pid fd l = .ok (w', reply) ∧ w'.locks = w.locks ∧
    reply.reply.result = 0 ∧
    (reply.flock.type = fUnlck ↔ ∃ r : CallReply, r.result = 0 ∧ w.Attempts os pid fd l r) ∧
    (reply.flock.type ≠ fUnlck → w.Describes os pid fd l reply.flock)

variable {w os pid fd l}

/-- A query fails, and leaves the `struct flock` and the table as they are. -/
theorem fcntlLock_getlk {w' : LockWorld} {reply : LockReply}
    (h : w.fcntlLock os .getlk pid fd l = .ok (w', reply)) :
    reply.reply.result = -1 ∧ reply.flock = l ∧ w'.locks = w.locks := by
  rcases fcntlLock_cases (by decide) h with ⟨hres, hflock, rfl | ⟨slot, -, rfl⟩⟩ | ⟨hcmd, -⟩
  · exact ⟨hres, hflock, rfl⟩
  · exact ⟨hres, hflock, rfl⟩
  · cases hcmd

end LockWorld

/-- **No query is answered.**  Whatever the lock table, the process, the descriptor and the request
are: if the call returns, it has failed, and the `struct flock` is what it was. -/
theorem getlk_fails (w : LockWorld) (os : LockAnswers) (pid : ℕ) (fd : ℤ) (l : Flock) :
    ¬ w.Answers os pid fd l ∧
      ∀ w' reply, w.fcntlLock os .getlk pid fd l = .ok (w', reply) →
        reply.reply.result = -1 ∧ reply.flock = l ∧ w'.locks = w.locks := by
  constructor
  · rintro ⟨w', reply, hok, -, hzero, -⟩
    have hfails := (LockWorld.fcntlLock_getlk hok).1
    rw [hzero] at hfails
    cases hfails
  · intro w' reply hok
    exact LockWorld.fcntlLock_getlk hok

/-- Nothing is locked: a query for the first ten bytes fails, an attempt succeeds. -/
theorem getlk_fails_firstTen :
    (∃ w, sameFileOpen.fcntlLock {} .getlk 1 3 (firstTen fWrlck) =
        .ok (w, ⟨{ result := -1 }, firstTen fWrlck⟩)) ∧
      sameFileOpen.Attempts {} 1 3 (firstTen fWrlck) { result := 0 } :=
  ⟨⟨_, rfl⟩, _, _, rfl⟩

/-! ### Regions -/

/-- The region that is stored for a request with the given range. -/
def requestRegion (pid : ℕ) (l : Flock) (start stop : ℤ) : LockedRegion :=
  ⟨start, stop, l.len, pid, l.type == fRdlck⟩

/-- A value of a signed 64-bit type. -/
def IsInt64 (z : ℤ) : Prop := -(2 ^ 63) ≤ z ∧ z < 2 ^ 63

/-- A request with this start and length is about byte `b`. -/
def InRequest (s len b : ℤ) : Prop :=
  if 0 < len then s ≤ b ∧ b ≤ s + len - 1
  else if len < 0 then s + len ≤ b ∧ b ≤ s - 1
  else s ≤ b

/-- The region has the bytes of a request: it has no others, it is not empty, and if the request is
about all bytes from its start on, it collides with all exclusive requests of others there. -/
structure LockedRegion.IsFor (lrn : LockedRegion) (s len : ℤ) : Prop where
  bytes : ∀ b, 0 ≤ b → IsInt64 b → (lrn.start ≤ b ∧ b ≤ lrn.stop ↔ InRequest s len b)
  start_le_stop : lrn.start ≤ lrn.stop
  collides : len = 0 → ∀ pid ≠ lrn.owner, ∀ start stop, s ≤ start → start ≤ stop → IsInt64 stop →
    findCollidingRegion [lrn] pid start stop false = some lrn

namespace LockWorld

variable {w w' : LockWorld} {os : LockAnswers} {pid slot : ℕ} {fd : ℤ} {l : Flock}

/-- The region has been added to the table. -/
def Stores (w w' : LockWorld) (lrn : LockedRegion) : Prop :=
  ∃ file, w'.locks = w.locks.add file lrn ∨ w'.locks = w.locks ++ [{ file, regions := [lrn] }]

/-- **What `F_SETLK` stores** is the region of the range that the common part has computed. -/
theorem fcntlLock_stores {reply : LockReply}
    (h : w.fcntlLock os .setlk pid fd l = .ok (w', reply)) (hzero : reply.reply.result = 0) :
    ∃ slot start stop, lockRequest os .setlk l (w.info pid slot) = .ok (start, stop) ∧
      w.Stores w' (requestRegion pid l start stop) := by
  rcases fcntlLock_cases (by decide) h with
    ⟨hres, -⟩ | ⟨-, -, slot, start, stop, -, hreq, hsetlk⟩
  · rw [hzero] at hres
    cases hres
  · refine ⟨slot, start, stop, hreq, ?_⟩
    rcases setlk_cases hsetlk with ⟨-, hres⟩ | ⟨locks, hgrant, ⟨rfl, -⟩ | ⟨rfl, -⟩⟩
    · rw [hzero] at hres
      cases hres
    · exact ⟨_, .inl (locks_grant hgrant)⟩
    · exact ⟨_, .inr (locks_grant hgrant)⟩

/-- What a process in the polling loop waits for is the region of its range. -/
theorem pending_of_fcntlSetlkw (h : w.fcntlSetlkw os pid fd l = .ok (w', none)) :
    ∃ slot start stop, lockRequest os .setlkw l (w.info pid slot) = .ok (start, stop) ∧
      w'.pending pid = some ⟨slot, (w.info pid slot).id, start, stop, l.len, l.type == fRdlck⟩ := by
  rcases fcntlSetlkw_cases h with ⟨hreply, -⟩ | ⟨slot, start, stop, -, hreq, rfl⟩
  · exact absurd rfl hreply
  · exact ⟨slot, start, stop, hreq, Function.update_self ..⟩

/-- **What `F_SETLKW` stores** when it succeeds is that region. -/
theorem poll_stores {semaphore : Bool} {reply : CallReply} {p : PendingLock}
    (hp : w.pending pid = some p) (h : w.poll semaphore pid = .ok (w', some reply))
    (hzero : reply.result = 0) :
    w.Stores w' ⟨p.start, p.stop, p.length, pid, p.shared⟩ := by
  rcases poll_cases h with ⟨-, hnone⟩ | ⟨p', hp', ⟨-, r, hr, hres⟩ | ⟨t, -, -, rfl, -⟩⟩
  · cases hnone
  · cases hr
    rw [hzero] at hres
    cases hres
  · rw [hp] at hp'
    cases hp'
    exact ⟨_, .inl rfl⟩

end LockWorld

/-! ### The bytes of a region -/

section Bytes

variable {l : Flock} {info : FileInfo} {start stop : ℤ}

/-- A number that is too large for 64 bits becomes negative. -/
theorem toInt64_of_ge {z : ℤ} (h₁ : 2 ^ 63 ≤ z) (h₂ : z < 2 ^ 64) : toInt64 z = z - 2 ^ 64 := by
  unfold toInt64
  rw [Int.bmod_def]
  split <;> omega

/-- The length of a request, where zero stands for `LONG_MAX`. -/
def requestLength (l : Flock) : ℤ := if l.len = 0 then longMax else l.len

theorem longMax_eq : (longMax : ℤ) = 2 ^ 31 - 1 := rfl

/-- The range of a request, without the conversions that change nothing. -/
theorem lockRange_cases (hlen : IsInt64 l.len) (hstart : IsInt64 (requestStart l info))
    (h : lockRange l info = some (start, stop)) :
    0 ≤ requestStart l info ∧
      ((l.len < 0 ∧ start = requestStart l info + l.len ∧ stop = requestStart l info - 1) ∨
        (0 ≤ l.len ∧ start = requestStart l info ∧
          stop = if start + requestLength l ≤ 2 ^ 63 then start + requestLength l - 1
            else (longMax : ℤ))) := by
  obtain ⟨hlen₁, hlen₂⟩ := hlen
  obtain ⟨hs₁, hs₂⟩ := hstart
  have hmax := longMax_eq
  -- the length that is used has the sign of the one that is given
  have hlength : (l.len < 0 ∧ requestLength l = l.len) ∨
      (0 ≤ l.len ∧ 0 < requestLength l ∧ requestLength l < 2 ^ 63) := by
    unfold requestLength
    split <;> omega
  unfold lockRange at h
  rw [← requestLength] at h
  generalize requestStart l info = s at *
  generalize requestLength l = len at *
  dsimp only at h
  split at h
  · cases h
  rename_i hs
  rw [not_lt] at hs
  refine ⟨hs, ?_⟩
  obtain ⟨hneg, rfl⟩ | ⟨hnonneg, hpos, hlt⟩ := hlength
  · rw [if_pos hneg, toInt64_of_le (by omega) (by omega)] at h
    split at h
    · cases h
    · rw [toInt64_of_le (by omega) (by omega), if_neg (by omega)] at h
      cases h
      exact .inl ⟨hneg, rfl, by omega⟩
  · rw [if_neg (by omega)] at h
    by_cases hfits : s + len ≤ 2 ^ 63
    · rw [toInt64_of_le (by omega) (by omega), if_neg (by omega)] at h
      cases h
      refine .inr ⟨hnonneg, rfl, ?_⟩
      rw [if_pos hfits]
      omega
    · rw [toInt64_of_ge (by omega) (by omega), if_pos (by omega)] at h
      cases h
      refine .inr ⟨hnonneg, rfl, ?_⟩
      rw [if_neg hfits]

/-- A region with the bytes of a request collides with whatever is asked for there. -/
theorem isFor_of_bytes {lrn : LockedRegion} {s len : ℤ} (hs : 0 ≤ s) (hle : lrn.start ≤ lrn.stop)
    (hbytes : ∀ b, 0 ≤ b → IsInt64 b → (lrn.start ≤ b ∧ b ≤ lrn.stop ↔ InRequest s len b)) :
    lrn.IsFor s len where
  bytes := hbytes
  start_le_stop := hle
  collides hlen pid hpid first last hfirst hlast hstop := by
    obtain ⟨-, hstop⟩ := hstop
    have hmem : InRequest s len first := by
      simp only [InRequest, hlen, lt_irrefl, if_false]
      exact hfirst
    obtain ⟨h₁, h₂⟩ := (hbytes first (by omega) ⟨by omega, by omega⟩).2 hmem
    have hoverlaps : lrn.overlaps first last = true := by
      simp only [LockedRegion.overlaps, Bool.and_eq_true, decide_eq_true_eq]
      omega
    have howner : (lrn.owner != pid) = true := by
      rw [bne_iff_ne]
      exact hpid.symm
    simp [findCollidingRegion, hoverlaps, howner]

/-- **Which regions have the bytes of their requests.**  A request for the bytes in front of its
start has; one for a number of bytes has if the last of them is a 64-bit offset; and one for all
bytes from its start on, which gets `LONG_MAX` of them, has just if no more are left. -/
theorem isFor_requestRegion_iff (os : LockAnswers) (cmd : LockCmd) (pid : ℕ) (l : Flock)
    (info : FileInfo) (hlen : IsInt64 l.len) (hstart : IsInt64 (requestStart l info))
    (h : lockRequest os cmd l info = .ok (start, stop)) :
    (requestRegion pid l start stop).IsFor (requestStart l info) l.len ↔
      l.len < 0 ∨ (0 < l.len ∧ requestStart l info + l.len ≤ 2 ^ 63) ∨
        (l.len = 0 ∧ requestStart l info = 2 ^ 63 - longMax) := by
  have hmax := longMax_eq
  obtain ⟨hs, hcases⟩ := lockRange_cases hlen hstart (lockRequest_eq_ok h).2.2
  obtain ⟨-, hs'⟩ := hstart
  have hrequest : ∀ b, InRequest (requestStart l info) l.len b ↔
      (0 < l.len ∧ requestStart l info ≤ b ∧ b ≤ requestStart l info + l.len - 1) ∨
        (l.len < 0 ∧ requestStart l info + l.len ≤ b ∧ b ≤ requestStart l info - 1) ∨
        (l.len = 0 ∧ requestStart l info ≤ b) := by
    intro b
    unfold InRequest
    split
    · omega
    · split <;> omega
  have hlength : requestLength l = if l.len = 0 then (longMax : ℤ) else l.len := rfl
  constructor
  · intro hfor
    obtain ⟨hneg, -⟩ | ⟨hnonneg, rfl, hstop⟩ := hcases
    · exact .inl hneg
    -- the last offset of all
    have hlast := (hfor.bytes (2 ^ 63 - 1) (by omega) ⟨by omega, by omega⟩).2
    rw [hrequest] at hlast
    simp only [requestRegion] at hlast
    by_cases hzero : l.len = 0
    · rw [if_pos hzero] at hlength
      refine .inr (.inr ⟨hzero, ?_⟩)
      have hle := (hlast (by omega)).2
      split at hstop <;> omega
    · rw [if_neg hzero] at hlength
      refine .inr (.inl ⟨by omega, ?_⟩)
      by_contra hnot
      have hle := (hlast (by omega)).2
      rw [if_neg (by omega)] at hstop
      omega
  · intro hcond
    obtain ⟨hneg, rfl, rfl⟩ | ⟨hnonneg, rfl, hstop⟩ := hcases
    · refine isFor_of_bytes hs (show _ + _ ≤ _ - _ by omega) fun b _ _ => ?_
      rw [hrequest]
      simp only [requestRegion]
      omega
    · have hfits : requestStart l info + requestLength l ≤ 2 ^ 63 := by
        split at hlength <;> omega
      rw [if_pos hfits] at hstop
      have hpos : 0 < requestLength l := by
        split at hlength <;> omega
      refine isFor_of_bytes hs (show requestStart l info ≤ stop by omega) fun b _ hb => ?_
      obtain ⟨-, hb⟩ := hb
      rw [hrequest]
      simp only [requestRegion]
      split at hlength <;> omega

end Bytes

/-- A request for ten bytes. -/
theorem isFor_firstTen :
    lockRequest {} .setlk (firstTen fWrlck) ⟨⟨1, [102]⟩, 100, 0⟩ = .ok (0, 9) ∧
      (requestRegion 1 (firstTen fWrlck) 0 9).IsFor 0 10 :=
  ⟨rfl, (isFor_requestRegion_iff {} .setlk 1 (firstTen fWrlck) ⟨⟨1, [102]⟩, 100, 0⟩
    ⟨by decide, by decide⟩ ⟨by decide, by decide⟩ rfl).2 (.inr (.inl ⟨by decide, by decide⟩))⟩

/-- One process locks all bytes of a file, and another one gets an exclusive lock on the byte
2147483648 nevertheless. -/
theorem not_isFor_wholeFile :
    (∃ w, Machine.exec LockStep.step sameFileOpen
        [.setlk {} 1 3 { type := fWrlck, whence := 0, start := 0, len := 0 },
          .setlk {} 2 3 { type := fWrlck, whence := 0, start := 2147483648, len := 1 }] =
          .ok (w, [some { result := 0 }, some { result := 0 }]) ∧
      w.locks = [⟨⟨1, [102]⟩, [⟨0, 2147483646, 0, 1, false⟩,
        ⟨2147483648, 2147483648, 1, 2, false⟩]⟩]) ∧
      ¬ (⟨0, 2147483646, 0, 1, false⟩ : LockedRegion).IsFor 0 0 := by
  refine ⟨⟨_, rfl, rfl⟩, ?_⟩
  intro h
  have hbyte := (h.bytes 2147483648 (by decide) ⟨by decide, by decide⟩).2 (by simp [InRequest])
  exact absurd hbyte.2 (by decide)

end Clib4

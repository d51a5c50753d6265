import TokuBackup.DoBackup.Model

/-!
# The source fd of a copy

`copy_regular_file` opens the source file and closes it; between two ranges, when the file's
`O_DIRECT` mode has changed, `open_and_lock_file_then_copy_range` closes it and opens it again.
The fd travels in a `source_info` that is passed by value, so that the new one is not seen
outside. What the functions report is in the model of the whole backup; here the calls have
the fds that they are made with.

`sourceFd_owned_iff` says for which answers of the calls the copier closes what it opens once,
uses no other fd, and reads where it has to in the mode that the file has.
-/

namespace TokuBackup.DoBackup.SourceFd

open Lib Script

/-! ## Calls -/

inductive Call where
  /-- Whether `O_DIRECT` is in the source file's flags, with its fd mutex held. -/
  | directIo
  | openSource (direct : Bool)
  /-- The locked section of `create_destination_and_copy`; whether there is a destination. -/
  | createDestination
  | clock
  | copyIsEnabled
  | close (fd : Nat)
  | lseek (fd offset : Nat)
  | read (fd : Nat)
  | poll
  | write (nbyte : Nat)
  | unlockRange
  | possiblySleepOrAbort
  deriving DecidableEq

/-- A `write` writes no more than it was given. -/
def Call.Answer : Call → Type
  | .directIo => Bool
  | .openSource _ => Except Errno Nat
  | .createDestination => Except Errno Bool
  | .clock => Option Errno
  | .copyIsEnabled => Bool
  | .close _ => Option Errno
  | .lseek _ _ => Option Errno
  | .read _ => Except Errno Nat
  | .poll => Int
  | .write nbyte => Except Errno (Fin (nbyte + 1))
  | .unlockRange => Option Errno
  | .possiblySleepOrAbort => Int

abbrev Event := Sigma Call.Answer

/-! ## Functions

The state is `m_total_written_this_file`. -/

abbrev FdM := Script Call.Answer Nat

section

variable (fd : Nat)

abbrev directIo : FdM Bool := call Call.directIo
abbrev openSource (direct : Bool) : FdM (Except Errno Nat) := call (Call.openSource direct)
abbrev createDestination : FdM (Except Errno Bool) := call Call.createDestination
abbrev clock : FdM (Option Errno) := call Call.clock
abbrev copyIsEnabled : FdM Bool := call Call.copyIsEnabled
abbrev close : FdM (Option Errno) := call (Call.close fd)
abbrev lseek (offset : Nat) : FdM (Option Errno) := call (Call.lseek fd offset)
abbrev read : FdM (Except Errno Nat) := call (Call.read fd)
abbrev poll : FdM Int := call Call.poll
abbrev write (nbyte : Nat) : FdM (Except Errno (Fin (nbyte + 1))) := call (Call.write nbyte)
abbrev unlockRange : FdM (Option Errno) := call Call.unlockRange
abbrev possiblySleepOrAbort : FdM Int := call Call.possiblySleepOrAbort

end

/-- `source_info`; of its flags, whether `O_DIRECT` is set. -/
structure SourceInfo where
  fd : Nat
  direct : Bool
  deriving DecidableEq

/-- The loop of `copy_file_range` that writes the buffer of `n_read` bytes. -/
def writeBuffer (n_read : Nat) : FdM CopyResult :=
  loop (fun ((n_wrote_this_buf, n_wrote_now) : Nat × Int) => do
    if n_wrote_this_buf < n_read then
      let r ← poll
      if r ≠ 0 then return .inl ⟨r, n_wrote_now⟩
      else
        match ← write (n_read - n_wrote_this_buf) with
        | .error e => return .inl ⟨e.code, -1⟩
        | .ok n =>
          change fun total => total + n
          return .inr (n_wrote_this_buf + n, (n : Nat))
    else return .inl ⟨0, n_wrote_now⟩) (0, 0)

def copyFileRange (src_info : SourceInfo) : FdM CopyResult := do
  match ← read src_info.fd with
  | .ok 0 => return ⟨0, 0⟩
  | .ok n_read => writeBuffer n_read
  | .error e => return ⟨e.code, 0⟩

/-- The `source_info` with the new fd is gone when the function returns. -/
def openAndLockFileThenCopyRange (src_info : SourceInfo) : FdM CopyResult := do
  let direct ← directIo
  if direct ≠ src_info.direct then
    let closed ← close src_info.fd
    match ← openSource direct with
    | .error e =>
      if e = .enoent then return ⟨(closed.map Errno.code).getD 0, 0⟩ else return ⟨e.code, 0⟩
    | .ok fd =>
      let m_total_written_this_file ← state
      match ← lseek fd m_total_written_this_file with
      | some e => return ⟨e.code, 0⟩
      | none => copyFileRange { src_info with fd }
  else copyFileRange src_info

def copyFileData (src_info : SourceInfo) : FdM Int := do
  change fun _ => 0
  match ← clock with
  | some e => return e.code
  | none =>
    loop (fun _ => do
      let enabled ← copyIsEnabled
      if enabled = false then return .inl 0
      else
        let result ← openAndLockFileThenCopyRange src_info
        match ← unlockRange with
        | some e => return .inl e.code
        | none =>
          if result.result ≠ 0 ∨ result.nWroteNow = 0 then return .inl result.result
          else
            let r ← possiblySleepOrAbort
            if r ≠ 0 then return .inl r else return .inr ()) ()

def createDestinationAndCopy (src_info : SourceInfo) : FdM Int := do
  match ← createDestination with
  | .error e => return e.code
  | .ok source_exists => if source_exists then copyFileData src_info else return 0

def copyRegularFile : FdM Int := do
  let direct ← directIo
  match ← openSource direct with
  | .error e => return if e = .enoent then 0 else e.code
  | .ok fd =>
    let result ← createDestinationAndCopy ⟨fd, direct⟩
    match ← close fd with
    | some e => return e.code
    | none => return result

/-! ## Ownership -/

/-- An fd of the source that is open. -/
structure Opened where
  fd : Nat
  direct : Bool
  offset : Nat
  deriving DecidableEq

/-- What the copier has opened and not closed yet. -/
structure Fds where
  opened : List Opened
  /-- `m_total_written_this_file` -/
  total : Nat
  /-- The mode that the file was last found to have. -/
  direct : Bool
  /-- No fd was used after it had been closed, and each `read` was at the right offset and in
  the right mode. -/
  owned : Prop

def Fds.Has (s : Fds) (fd : Nat) : Prop := ∃ o ∈ s.opened, o.fd = fd

/-- The file can be read from `fd`. -/
def Fds.Readable (s : Fds) (fd : Nat) : Prop :=
  ∃ o ∈ s.opened, o.fd = fd ∧ o.offset = s.total ∧ o.direct = s.direct

/-- Change the offset of `fd`. -/
def Fds.move (s : Fds) (fd : Nat) (offset : Nat → Nat) : List Opened :=
  s.opened.map fun o => if o.fd = fd then { o with offset := offset o.offset } else o

def Fds.after (s : Fds) : Event → Fds
  | ⟨.directIo, (direct : Bool)⟩ => { s with direct }
  | ⟨.openSource direct, .ok fd⟩ => { s with opened := ⟨fd, direct, 0⟩ :: s.opened }
  | ⟨.close fd, _⟩ =>
    { s with opened := s.opened.filter (·.fd ≠ fd), owned := s.owned ∧ s.Has fd }
  | ⟨.lseek fd offset, (error : Option Errno)⟩ =>
    { s with
      opened := s.move fd fun o => if error = none then offset else o
      owned := s.owned ∧ s.Has fd }
  | ⟨.read fd, .ok n_read⟩ =>
    { s with opened := s.move fd (· + n_read), owned := s.owned ∧ s.Readable fd }
  | ⟨.read fd, .error _⟩ => { s with owned := s.owned ∧ s.Readable fd }
  | ⟨.write _, .ok n⟩ => { s with total := s.total + n }
  | _ => s

def Fds.start : Fds := ⟨[], 0, false, True⟩

/-- At the end the copier has closed all that it opened. -/
def Owned (es : List Event) : Prop :=
  (es.foldl Fds.after .start).owned ∧ (es.foldl Fds.after .start).opened = []

/-! ## Changes of the mode -/

/-- What the copier finds the mode to be. -/
structure Modes where
  /-- The fd and the mode at the beginning. -/
  first : Option SourceInfo
  /-- The mode was another one at the last range. -/
  changed : Bool
  /-- The mode does not change back, and a file that is opened again has the same fd. -/
  harmless : Prop

def Modes.after (k : Modes) : Event → Modes
  | ⟨.directIo, (direct : Bool)⟩ =>
    match k.first with
    | none => k
    | some src_info =>
      { k with
        changed := direct ≠ src_info.direct
        harmless := k.harmless ∧ (k.changed = true → direct ≠ src_info.direct) }
  | ⟨.openSource direct, (r : Except Errno Nat)⟩ =>
    match k.first with
    | none => { k with first := r.toOption.map fun fd => ⟨fd, direct⟩ }
    | some src_info => { k with harmless := k.harmless ∧ r = .ok src_info.fd }
  | _ => k

def Modes.start : Modes := ⟨none, false, True⟩

/-- Whenever a range finds another mode than the beginning, the source can be opened again and
has the fd that was just closed, and every range after it finds that mode. -/
def HarmlessChanges (es : List Event) : Prop := (es.foldl Modes.after .start).harmless

/-! ## Invariants -/

/-- Both watches. -/
abbrev Watch := Fds × Modes

def Watch.after (g : Watch) (e : Event) : Watch := (g.1.after e, g.2.after e)

theorem foldl_after (es : List Event) (g : Watch) :
    es.foldl Watch.after g = (es.foldl Fds.after g.1, es.foldl Modes.after g.2) := by
  induction es generalizing g with
  | nil => rfl
  | cons e es ih => exact ih (g.after e)

/-- The copier has the one fd that it opened, at an offset of which `place` holds. -/
structure Kept (src_info : SourceInfo) (place : Nat → Prop) (g : Watch) (total : Nat) : Prop where
  owned : g.1.owned
  harmless : g.2.harmless
  first : g.2.first = some src_info
  total_eq : g.1.total = total
  opened : ∃ offset, place offset ∧
    g.1.opened = [⟨src_info.fd, src_info.direct ^^ g.2.changed, offset⟩]

/-- The copier has used an fd that it does not have. -/
def Broken (g : Watch) : Prop := ¬ g.1.owned ∧ ¬ g.2.harmless

/-- The copier does not have the fd that it will close, or has used one that it did not have. -/
def Lost (src_info : SourceInfo) (g : Watch) : Prop :=
  ¬ g.2.harmless ∧ (g.1.owned → ¬ g.1.Has src_info.fd)

section

variable {src_info src : SourceInfo} {g : Watch} {total : Nat} {inPlace : Prop}

theorem Broken.after (h : Broken g) (e : Event) : Broken (g.after e) := by
  obtain ⟨howned, hharmless⟩ := h
  constructor
  · intro h
    apply howned
    obtain ⟨c, r⟩ := e
    simp only [Watch.after, Fds.after] at h
    split at h
    all_goals first | exact h | exact h.1
  · intro h
    apply hharmless
    obtain ⟨c, r⟩ := e
    simp only [Watch.after, Modes.after] at h
    split at h
    · split at h
      · exact h
      · exact h.1
    · split at h
      · exact h
      · exact h.1
    · exact h

theorem Broken.lost (h : Broken g) : Lost src_info g := ⟨h.2, fun howned => absurd howned h.1⟩

theorem Fds.has_move {s : Fds} {fd : Nat} {offset : Nat → Nat} {fd' : Nat} :
    (∃ o ∈ s.move fd offset, o.fd = fd') ↔ s.Has fd' := by
  simp only [Fds.move, Fds.Has, List.mem_map]
  constructor
  · rintro ⟨_, ⟨o, ho, rfl⟩, hfd⟩
    refine ⟨o, ho, ?_⟩
    split_ifs at hfd <;> exact hfd
  · rintro ⟨o, ho, hfd⟩
    refine ⟨_, ⟨o, ho, rfl⟩, ?_⟩
    split_ifs <;> exact hfd

/-- Only opening the source can give the fd back. -/
theorem Lost.after (h : Lost src_info g) {e : Event} (he : ∀ direct, e.1 ≠ .openSource direct) :
    Lost src_info (g.after e) := by
  obtain ⟨hharmless, hgone⟩ := h
  obtain ⟨c, r⟩ := e
  constructor
  · intro h
    apply hharmless
    cases c with
    | openSource direct => exact absurd rfl (he direct)
    | directIo =>
      simp only [Watch.after, Modes.after] at h
      split at h
      · exact h
      · exact h.1
    | _ => exact h
  · cases c with
    | openSource direct => exact absurd rfl (he direct)
    | close fd =>
      rintro ⟨howned, _⟩ ⟨o, ho, hfd⟩
      exact hgone howned ⟨o, (List.mem_filter.mp ho).1, hfd⟩
    | lseek fd offset => exact fun howned hhas => hgone howned.1 (Fds.has_move.mp hhas)
    | read fd =>
      change Except Errno Nat at r
      cases r with
      | error e => exact fun howned hhas => hgone howned.1 hhas
      | ok n_read =>
        intro howned hhas
        exact hgone howned.1 ((@Fds.has_move g.1 fd (· + n_read) src_info.fd).mp hhas)
    | write nbyte =>
      change Except Errno (Fin (nbyte + 1)) at r
      cases r with
      | error e => exact hgone
      | ok n => exact hgone
    | _ => exact hgone

theorem Lost.close (h : Lost src_info g) (r : Option Errno) :
    Broken (g.after ⟨.close src_info.fd, r⟩) :=
  ⟨fun howned => h.2 howned.1 howned.2, h.1⟩

/-! ## One range -/

/-- What the events of the copying keep, the copying keeps. -/
def Stable (P : Watch → Prop) : Prop :=
  ∀ g (e : Event), (∀ direct, e.1 ≠ .openSource direct) → P g → P (g.after e)

theorem stable_lost : Stable (Lost src_info) := fun _ _ he h => h.after he

theorem stable_broken : Stable Broken := fun _ e _ h => h.after e

theorem Stable.writeBuffer {P : Watch → Prop} (h : Stable P) (n_read : Nat) :
    Watched Watch.after (fun g _ => P g) (writeBuffer n_read) fun _ g _ => P g := by
  have hstep : ∀ (c : Call) (r : c.Answer) (g : Watch) (_ : Nat),
      (∀ direct, c ≠ .openSource direct) → P g → P (g.after ⟨c, r⟩) :=
    fun c r g _ hc hg => h g ⟨c, r⟩ hc hg
  refine @watched_loop _ _ _ _ _ _ _ _ _ (fun _ g _ => P g) (fun b => ?_) _
  obtain ⟨n_wrote_this_buf, n_wrote_now⟩ := b
  dsimp only
  split
  · refine watched_call (fun _ g _ => P g) (fun r g s => hstep .poll r g s (by simp)) fun r => ?_
    split
    · exact watched_pure fun _ _ hg => hg
    · refine watched_call (fun _ g _ => P g) (fun r g s => hstep (.write _) r g s (by simp))
        fun r => ?_
      split
      · exact watched_pure fun _ _ hg => hg
      · exact watched_change _ (fun _ _ hg => hg) (watched_pure fun _ _ hg => hg)
  · exact watched_pure fun _ _ hg => hg

theorem Stable.copyFileRange {P : Watch → Prop} (h : Stable P) (src : SourceInfo) :
    Watched Watch.after (fun g _ => P g) (copyFileRange src) fun _ g _ => P g := by
  refine watched_call (fun _ g _ => P g) (fun r g _ => h g ⟨.read src.fd, r⟩ (by simp))
    fun r => ?_
  split
  · exact watched_pure fun _ _ hg => hg
  · exact h.writeBuffer _
  · exact watched_pure fun _ _ hg => hg

theorem Kept.mono {place place' : Nat → Prop} (h : Kept src_info place g total)
    (himp : ∀ offset, place offset → place' offset) : Kept src_info place' g total := by
  obtain ⟨offset, hplace, hopened⟩ := h.opened
  exact { h with opened := ⟨offset, himp offset hplace, hopened⟩ }

/-- An event that has nothing to do with the fd. -/
theorem Kept.after {place : Nat → Prop} (h : Kept src_info place g total) {e : Event}
    (he : g.after e = g) : Kept src_info place (g.after e) total := by
  rw [he]
  exact h

/-- The bytes that were read are written, one `write` after the other. -/
theorem watched_writeBuffer_kept (n_read : Nat) :
    Watched Watch.after
      (fun g total => Kept src_info (fun offset => offset = total + n_read) g total)
      (writeBuffer n_read)
      fun a g total => Kept src_info (fun offset => a.result = 0 → offset = total) g total := by
  let inv : Nat × Int → Watch → Nat → Prop := fun b g total =>
    b.1 ≤ n_read ∧ Kept src_info (fun offset => offset + b.1 = total + n_read) g total
  have hbody : Watched Watch.after (inv (0, 0)) (writeBuffer n_read)
      fun a g total => Kept src_info (fun offset => a.result = 0 → offset = total) g total := by
    refine @watched_loop _ _ _ _ _ _ _ _ _ inv (fun b => ?_) _
    obtain ⟨n_wrote_this_buf, n_wrote_now⟩ := b
    dsimp only
    split
    · rename_i hmore
      refine watched_call (fun _ => inv (n_wrote_this_buf, n_wrote_now)) (fun r g s hg => hg)
        fun (r : Int) => ?_
      split
      · rename_i hr
        exact watched_pure fun g s hg => hg.2.mono fun offset _ hzero => absurd hzero hr
      · let wrote : Except Errno (Fin (n_read - n_wrote_this_buf + 1)) → Watch → Nat → Prop :=
          fun r g total => match r with
            | .ok n => inv (n_wrote_this_buf + n, (n : Nat)) g (total + n)
            | .error _ => inv (n_wrote_this_buf, n_wrote_now) g total
        refine watched_call wrote (fun r g total hg => ?_) fun r => ?_
        · have hle := hg.1
          change Except Errno (Fin (n_read - n_wrote_this_buf + 1)) at r
          cases r with
          | error e => exact hg
          | ok n =>
            have hn := n.isLt
            refine ⟨by dsimp only; omega, hg.2.owned, hg.2.harmless, hg.2.first, ?_, ?_⟩
            · exact congrArg (· + n.val) hg.2.total_eq
            · obtain ⟨offset, hplace, hopened⟩ := hg.2.opened
              exact ⟨offset, by dsimp only at hplace ⊢; omega, hopened⟩
        · split
          · exact watched_pure fun g s hg => hg.2.mono fun offset _ hzero =>
              absurd hzero (Errno.code_ne _)
          · refine watched_change (inv (_, _)) (fun g s hg => hg) (watched_pure fun _ _ hg => hg)
    · rename_i hdone
      refine watched_pure fun g s hg => hg.2.mono fun offset hplace _ => ?_
      have := hg.1
      omega
  exact Watched.weaken hbody (fun g s hg => ⟨Nat.zero_le _, hg⟩) fun _ _ _ h => h

/-- What the copier has after a read of its fd, and where. -/
def KeptRead (src_info : SourceInfo) : Except Errno Nat → Watch → Nat → Prop
  | .ok n_read, g, total => Kept src_info (fun offset => offset = total + n_read) g total
  | .error _, g, total => Kept src_info (· = total) g total

/-- One range is read from the fd that the copier has, in the right mode. -/
theorem watched_copyFileRange_kept :
    Watched Watch.after
      (fun g total => Kept src_info (· = total) g total ∧
        g.1.direct = (src_info.direct ^^ g.2.changed))
      (copyFileRange src_info)
      fun a g total => Kept src_info (fun offset => a.result = 0 → offset = total) g total := by
  refine watched_call (KeptRead src_info) (fun r g total hg => ?_) fun r => ?_
  · obtain ⟨hkept, hmode⟩ := hg
    obtain ⟨offset, rfl, hopened⟩ := hkept.opened
    have hreadable : g.1.Readable src_info.fd := by
      refine ⟨_, by rw [hopened]; exact List.mem_singleton_self _, rfl,
        hkept.total_eq.symm, hmode.symm⟩
    change Except Errno Nat at r
    cases r with
    | error e =>
      exact ⟨⟨hkept.owned, hreadable⟩, hkept.harmless, hkept.first, hkept.total_eq, _, rfl, hopened⟩
    | ok n_read =>
      refine ⟨⟨hkept.owned, hreadable⟩, hkept.harmless, hkept.first, hkept.total_eq, _, rfl, ?_⟩
      change g.1.move src_info.fd (· + n_read) = _
      rw [Fds.move, hopened, List.map_singleton, if_pos rfl]
      rfl
  · change Except Errno Nat at r
    cases r with
    | error e =>
      exact watched_pure fun g s hg => hg.mono fun offset _ hzero => absurd hzero (Errno.code_ne _)
    | ok n_read =>
      cases n_read with
      | zero => exact watched_pure fun g s hg => hg.mono fun offset hplace _ => hplace
      | succ n => exact watched_writeBuffer_kept _

/-- One range is read from an fd that the copier does not have, or in the wrong mode. -/
theorem watched_copyFileRange_unreadable :
    Watched Watch.after
      (fun g _ => ¬ g.2.harmless ∧ (g.1.owned → ¬ g.1.Readable src_info.fd))
      (copyFileRange src_info) fun _ g _ => Broken g := by
  refine watched_call (fun _ g _ => Broken g) (fun r g _ hg => ?_) fun r => ?_
  · refine ⟨fun howned => ?_, hg.1⟩
    change Except Errno Nat at r
    cases r with
    | error e => exact hg.2 howned.1 howned.2
    | ok n_read => exact hg.2 howned.1 howned.2
  · split
    · exact watched_pure fun _ _ hg => hg
    · exact stable_broken.writeBuffer _
    · exact watched_pure fun _ _ hg => hg

theorem Fds.Readable.has {s : Fds} {fd : Nat} (h : s.Readable fd) : s.Has fd := by
  obtain ⟨o, ho, hfd, _⟩ := h
  exact ⟨o, ho, hfd⟩

/-- The mode was found to be another one than at the beginning. -/
structure Reopening (src_info : SourceInfo) (g : Watch) (total : Nat) : Prop where
  owned : g.1.owned
  harmless : g.2.harmless
  first : g.2.first = some src_info
  total_eq : g.1.total = total
  changed : g.2.changed = true
  opened : ∃ o, o.fd = src_info.fd ∧ g.1.opened = [o]
  direct : g.1.direct = !src_info.direct

theorem watched_openAndLock_lost :
    Watched Watch.after (fun g _ => Lost src_info g) (openAndLockFileThenCopyRange src_info)
      fun _ g _ => Lost src_info g := by
  refine watched_call (fun _ g _ => Lost src_info g)
    (fun r g _ hg => hg.after (e := ⟨.directIo, r⟩) (by simp)) fun direct => ?_
  split
  · refine watched_call (fun _ g _ => Broken g) (fun r g _ hg => hg.close r) fun closed => ?_
    refine Watched.weaken ?_ (fun _ _ hg => hg) fun _ _ _ hg => Broken.lost hg
    refine watched_call (fun _ g _ => Broken g) (fun r g _ hg => hg.after _) fun r => ?_
    split
    · split
      · exact watched_pure fun _ _ hg => hg
      · exact watched_pure fun _ _ hg => hg
    · refine watched_state fun total => watched_call (fun _ g _ => Broken g)
        (fun r g _ hg => hg.2.after _) fun r => ?_
      split
      · exact watched_pure fun _ _ hg => hg
      · exact stable_broken.copyFileRange _
  · exact stable_lost.copyFileRange _

/-- What `directIo` finds. -/
def Found (src_info : SourceInfo) (direct : Bool) (g : Watch) (total : Nat) : Prop :=
  if direct ≠ src_info.direct then Reopening src_info g total
  else (Kept src_info (· = total) g total ∧ g.1.direct = (src_info.direct ^^ g.2.changed)) ∨
    (¬ g.2.harmless ∧ (g.1.owned → ¬ g.1.Readable src_info.fd))

theorem Kept.found (h : Kept src_info (· = total) g total) (direct : Bool) :
    Found src_info direct (g.after ⟨.directIo, direct⟩) total := by
  obtain ⟨fds, modes⟩ := g
  obtain ⟨howned, hharmless, hfirst, htotal, offset, rfl, hopened⟩ := h
  obtain ⟨first, changed, harmless⟩ := modes
  dsimp only at hharmless hfirst hopened
  subst hfirst
  unfold Found
  split_ifs with hdiffer
  · refine ⟨howned, ⟨hharmless, fun _ => hdiffer⟩, rfl, htotal, ?_, ⟨_, rfl, hopened⟩, ?_⟩
    · exact decide_eq_true hdiffer
    · exact Bool.eq_not.mpr hdiffer
  · rw [not_not] at hdiffer
    subst hdiffer
    cases changed with
    | false =>
      refine Or.inl ⟨⟨howned, ⟨hharmless, fun h => ?_⟩, rfl, htotal, offset, rfl, ?_⟩, ?_⟩
      · cases h
      · simpa [Watch.after, Modes.after, Fds.after] using hopened
      · simp [Watch.after, Modes.after, Fds.after]
    | true =>
      refine Or.inr ⟨fun h => h.2 rfl rfl, fun _ hreadable => ?_⟩
      obtain ⟨o, ho, _, _, hmode⟩ := hreadable
      change o ∈ fds.opened at ho
      rw [hopened, List.mem_singleton] at ho
      subst ho
      simp [Watch.after, Fds.after] at hmode

/-- The source after it was closed because of its mode. -/
structure Closed (src_info : SourceInfo) (g : Watch) (total : Nat) : Prop where
  owned : g.1.owned
  harmless : g.2.harmless
  first : g.2.first = some src_info
  total_eq : g.1.total = total
  changed : g.2.changed = true
  opened : g.1.opened = []
  direct : g.1.direct = !src_info.direct

theorem Reopening.close (h : Reopening src_info g total) (r : Option Errno) :
    Closed src_info (g.after ⟨.close src_info.fd, r⟩) total := by
  obtain ⟨o, hfd, hopened⟩ := h.opened
  refine ⟨⟨h.owned, o, ?_, hfd⟩, h.harmless, h.first, h.total_eq, h.changed, ?_, h.direct⟩
  · rw [hopened]
    exact List.mem_singleton_self o
  · change g.1.opened.filter _ = []
    rw [hopened, List.filter_cons_of_neg (by simpa using hfd)]
    rfl

/-- What opening the source again comes to. -/
def Reopened (src_info : SourceInfo) (g : Watch) (total : Nat) : Except Errno Nat → Prop
  | .ok fd =>
    if fd = src_info.fd then
      Kept src_info (fun _ => True) g total ∧ g.1.direct = (src_info.direct ^^ g.2.changed)
    else Lost src_info g
  | .error _ => Lost src_info g

theorem Closed.openSource (h : Closed src_info g total) {direct : Bool}
    (hdirect : direct ≠ src_info.direct) (r : Except Errno Nat) :
    Reopened src_info (g.after ⟨.openSource direct, r⟩) total r := by
  obtain ⟨⟨opened, sum, mode, owned⟩, ⟨first, changed, harmless⟩⟩ := g
  obtain ⟨howned, hharmless, hfirst, htotal, hchanged, hopened, hmode⟩ := h
  dsimp only at hharmless hfirst hchanged hopened hmode
  subst hfirst hchanged hopened
  cases r with
  | error e =>
    rw [Reopened]
    refine ⟨fun h => ?_, fun _ hhas => ?_⟩
    · cases h.2
    · obtain ⟨o, ho, _⟩ := hhas
      cases ho
  | ok fd =>
    rw [Reopened]
    split_ifs with hfd
    · subst hfd
      refine ⟨⟨howned, ⟨hharmless, rfl⟩, rfl, htotal, 0, trivial, ?_⟩, ?_⟩
      · change [(⟨src_info.fd, direct, 0⟩ : Opened)] = [⟨src_info.fd, src_info.direct ^^ true, 0⟩]
        rw [Bool.eq_not.mpr hdirect, Bool.xor_true]
      · exact hmode.trans (Bool.xor_true _).symm
    · refine ⟨fun h => hfd (Except.ok.inj h.2), fun _ hhas => ?_⟩
      obtain ⟨o, ho, ho'⟩ := hhas
      rw [List.mem_singleton.mp ho] at ho'
      exact hfd ho'

/-- Positioning the source, when it is open again. -/
theorem Kept.lseek (h : Kept src_info (fun _ => True) g total) (r : Option Errno) :
    Kept src_info (fun offset => r = none → offset = total)
      (g.after ⟨.lseek src_info.fd total, r⟩) total := by
  obtain ⟨offset, _, hopened⟩ := h.opened
  have hmove : (g.after ⟨.lseek src_info.fd total, r⟩).1.opened =
      [⟨src_info.fd, src_info.direct ^^ g.2.changed, if r = none then total else offset⟩] := by
    change g.1.move src_info.fd _ = _
    rw [Fds.move, hopened, List.map_singleton, if_pos rfl]
  refine ⟨⟨h.owned, _, by rw [hopened]; exact List.mem_singleton_self _, rfl⟩, h.harmless, h.first,
    h.total_eq, _, fun hr => if_pos hr, hmove⟩

theorem watched_openAndLock_kept :
    Watched Watch.after (fun g total => Kept src_info (· = total) g total)
      (openAndLockFileThenCopyRange src_info)
      fun a g total => Kept src_info (fun offset => a.result = 0 → offset = total) g total ∨
        Lost src_info g := by
  refine watched_call (fun direct g total => Found src_info direct g total)
    (fun r g total hg => hg.found r) fun direct => ?_
  split
  · rename_i hdiffer
    refine watched_call (fun _ g total => Closed src_info g total) (fun r g total hg => ?_)
      fun closed => ?_
    · have hre : Found src_info direct g total = Reopening src_info g total := if_pos hdiffer
      exact (hre.mp hg).close r
    refine watched_call (fun r g total => Reopened src_info g total r)
      (fun r g total hg => hg.openSource hdiffer r) fun r => ?_
    change Except Errno Nat at r
    cases r with
    | error e =>
      dsimp only
      split
      · exact watched_pure fun _ _ hg => Or.inr hg
      · exact watched_pure fun _ _ hg => Or.inr hg
    | ok fd =>
      refine watched_state fun m_total_written_this_file => ?_
      by_cases hfd : fd = src_info.fd
      · subst hfd
        refine watched_call (fun r g total =>
          Kept src_info (fun offset => r = none → offset = total) g total ∧
            g.1.direct = (src_info.direct ^^ g.2.changed)) (fun r g total hg => ?_)
          fun (r : Option Errno) => ?_
        · obtain ⟨rfl, hg⟩ := hg
          rw [Reopened, if_pos rfl] at hg
          exact ⟨hg.1.lseek r, hg.2⟩
        · cases r with
          | some e =>
            exact watched_pure fun g s hg =>
              Or.inl (hg.1.mono fun offset _ hzero => absurd hzero e.code_ne)
          | none =>
            refine Watched.weaken watched_copyFileRange_kept (fun g s hg => ?_)
              fun _ _ _ hg => Or.inl hg
            exact ⟨hg.1.mono fun offset hplace => hplace rfl, hg.2⟩
      · refine watched_call (fun _ g _ => Lost src_info g) (fun r g total hg => ?_) fun r => ?_
        · obtain ⟨_, hg⟩ := hg
          rw [Reopened, if_neg hfd] at hg
          exact hg.after (by simp)
        · split
          · exact watched_pure fun _ _ hg => Or.inr hg
          · exact Watched.weaken (stable_lost.copyFileRange _) (fun _ _ hg => hg)
              fun _ _ _ hg => Or.inr hg
  · rename_i hsame
    refine Watched.weaken (Watched.or
      (Watched.weaken watched_copyFileRange_kept (fun _ _ hg => hg) fun _ _ _ hg => Or.inl hg)
      (Watched.weaken watched_copyFileRange_unreadable (fun _ _ hg => hg)
        fun _ _ _ hg => Or.inr hg.lost)) (fun g s hg => ?_) fun _ _ _ hg => hg
    have hsame : Found src_info direct g s = _ := if_neg hsame
    exact hsame.mp hg

/-! ## The whole copy -/

/-- The fd that will be closed is the one that the copier has, or the copier is lost. -/
def Whole (src_info : SourceInfo) (g : Watch) (total : Nat) : Prop :=
  Kept src_info (fun _ => True) g total ∨ Lost src_info g

theorem watched_copyFileData :
    Watched Watch.after (fun g _ => Kept src_info (· = 0) g 0) (copyFileData src_info)
      fun _ g total => Whole src_info g total := by
  let inv : Watch → Nat → Prop := fun g total =>
    Kept src_info (· = total) g total ∨ Lost src_info g
  have hwhole : ∀ g total, inv g total → Whole src_info g total := fun g total hg =>
    hg.imp_left fun hkept => hkept.mono fun _ _ => trivial
  refine watched_change (fun g total => total = 0 ∧ inv g total)
    (fun g total hg => ⟨rfl, Or.inl hg⟩) ?_
  refine watched_call (fun _ => inv) (fun r g total hg => hg.2) fun (r : Option Errno) => ?_
  cases r with
  | some e => exact watched_pure hwhole
  | none =>
    refine @watched_loop _ _ _ _ _ _ _ _ _ (fun _ => inv) (fun _ => ?_) ()
    refine watched_call (fun _ => inv) (fun r g total hg => hg) fun enabled => ?_
    split
    · exact watched_pure hwhole
    · refine watched_bind (Watched.weaken (Watched.or watched_openAndLock_kept
        (Watched.weaken watched_openAndLock_lost (fun _ _ hg => hg) fun _ _ _ hg => Or.inr hg))
        (fun g total hg => hg) fun _ _ _ hg => hg) fun result => ?_
      refine watched_call (fun _ g total =>
        Kept src_info (fun offset => result.result = 0 → offset = total) g total ∨ Lost src_info g)
        (fun r g total hg => hg) fun (r : Option Errno) => ?_
      have hleft : ∀ g total,
          Kept src_info (fun offset => result.result = 0 → offset = total) g total ∨
            Lost src_info g → Whole src_info g total := fun g total hg =>
        hg.imp_left fun hkept => hkept.mono fun _ _ => trivial
      cases r with
      | some e => exact watched_pure hleft
      | none =>
        dsimp only
        split
        · exact watched_pure hleft
        · rename_i hmore
          rw [not_or, not_not] at hmore
          refine watched_call (fun _ => inv) (fun r g total hg => ?_) fun (r : Int) => ?_
          · exact hg.imp_left fun hkept => hkept.mono fun offset hplace => hplace hmore.1
          · split
            · exact watched_pure hwhole
            · exact watched_pure fun _ _ hg => hg

theorem watched_createDestinationAndCopy :
    Watched Watch.after (fun g _ => Kept src_info (· = 0) g 0) (createDestinationAndCopy src_info)
      fun _ g _ => ∃ total, Whole src_info g total := by
  have hwhole : ∀ g (_ : Nat), Kept src_info (· = 0) g 0 → ∃ total, Whole src_info g total :=
    fun g _ hg => ⟨0, Or.inl (hg.mono fun _ _ => trivial)⟩
  refine watched_call (fun _ g _ => Kept src_info (· = 0) g 0) (fun r g _ hg => hg)
    fun (r : Except Errno Bool) => ?_
  cases r with
  | error e => exact watched_pure hwhole
  | ok source_exists =>
    dsimp only
    split
    · exact Watched.weaken watched_copyFileData (fun _ _ hg => hg) fun _ _ total hg => ⟨total, hg⟩
    · exact watched_pure hwhole

/-- The copier closes the fd that it has, or one that it does not have. -/
theorem Whole.close (h : Whole src_info g total) (r : Option Errno) :
    (g.after ⟨.close src_info.fd, r⟩).1.owned ∧ (g.after ⟨.close src_info.fd, r⟩).1.opened = [] ↔
      (g.after ⟨.close src_info.fd, r⟩).2.harmless := by
  rcases h with h | h
  · obtain ⟨offset, _, hopened⟩ := h.opened
    refine iff_of_true ⟨⟨h.owned, _, by rw [hopened]; exact List.mem_singleton_self _, rfl⟩, ?_⟩
      h.harmless
    change g.1.opened.filter _ = []
    rw [hopened, List.filter_cons_of_neg (by simp)]
    rfl
  · obtain ⟨howned, hharmless⟩ := h.close r
    exact iff_of_false (fun hboth => howned hboth.1) hharmless

theorem watched_copyRegularFile :
    Watched Watch.after (fun g _ => g = (.start, .start)) copyRegularFile
      fun _ g _ => g.1.owned ∧ g.1.opened = [] ↔ g.2.harmless := by
  refine watched_call (fun (direct : Bool) g _ => g = ({ Fds.start with direct }, .start)) ?_
    fun (direct : Bool) => ?_
  · rintro r g s rfl
    rfl
  refine watched_call (fun (r : Except Errno Nat) g _ => match r with
    | .ok fd => Kept ⟨fd, direct⟩ (· = 0) g 0
    | .error _ => g.1.owned ∧ g.1.opened = [] ∧ g.2.harmless) ?_ fun (r : Except Errno Nat) => ?_
  · rintro r g s rfl
    change Except Errno Nat at r
    cases r with
    | error e => exact ⟨trivial, rfl, trivial⟩
    | ok fd =>
      refine ⟨trivial, trivial, rfl, rfl, 0, rfl, ?_⟩
      change [(⟨fd, direct, 0⟩ : Opened)] = [⟨fd, direct ^^ false, 0⟩]
      rw [Bool.xor_false]
  cases r with
  | error e =>
    refine watched_pure fun g s hg => ?_
    exact iff_of_true ⟨hg.1, hg.2.1⟩ hg.2.2
  | ok fd =>
    refine watched_bind watched_createDestinationAndCopy fun result => ?_
    refine watched_call (fun _ g _ => g.1.owned ∧ g.1.opened = [] ↔ g.2.harmless)
      (fun r g s hg => ?_) fun (r : Option Errno) => ?_
    · obtain ⟨total, hwhole⟩ := hg
      exact hwhole.close r
    · cases r with
      | some e => exact watched_pure fun _ _ hg => hg
      | none => exact watched_pure fun _ _ hg => hg

end

/-- The copier closes every fd that it opens once, uses no other, and reads at the right offset
in the mode in force, exactly when the changes of the mode are harmless. -/
theorem sourceFd_owned_iff {es : List Event} {total total' : Nat} {r : Int}
    (hrun : copyRegularFile (es, total) = some (r, [], total')) :
    Owned es ↔ HarmlessChanges es := by
  obtain ⟨t, ht, hwatch⟩ := watched_copyRegularFile es total r [] total' hrun
  rw [List.append_nil] at ht
  subst ht
  have h := hwatch (.start, .start) rfl
  rw [foldl_after] at h
  exact h

/-- A copy of two bytes, whose last range finds the file open with `O_DIRECT`; the source gets
its fd again. -/
theorem sourceFd_owned_reopened :
    ∃ es r total', copyRegularFile (es, 0) = some (r, [], total') ∧ Owned es := by
  let es : List Event := [⟨.directIo, false⟩, ⟨.openSource false, .ok 5⟩,
    ⟨.createDestination, .ok true⟩, ⟨.clock, none⟩, ⟨.copyIsEnabled, true⟩, ⟨.directIo, false⟩,
    ⟨.read 5, .ok 2⟩, ⟨.poll, (0 : Int)⟩, ⟨.write 2, .ok 2⟩, ⟨.unlockRange, none⟩,
    ⟨.possiblySleepOrAbort, (0 : Int)⟩, ⟨.copyIsEnabled, true⟩, ⟨.directIo, true⟩,
    ⟨.close 5, none⟩, ⟨.openSource true, .ok 5⟩, ⟨.lseek 5 2, none⟩, ⟨.read 5, .ok 0⟩,
    ⟨.unlockRange, none⟩, ⟨.close 5, none⟩]
  have hrun : copyRegularFile (es, 0) = some (0, [], 2) := rfl
  refine ⟨es, 0, 2, hrun, (sourceFd_owned_iff hrun).mpr ?_⟩
  simp [es, HarmlessChanges, Modes.after, Modes.start, Except.toOption]

/-- Another thread gets the number that the copier closes, so that the source is opened under
another one: the copier closes the fd of the other thread and keeps its own. -/
theorem not_sourceFd_owned_numberTaken :
    ¬ ∀ (es : List Event) (total total' : Nat) (r : Int),
      copyRegularFile (es, total) = some (r, [], total') → Owned es := by
  intro hall
  obtain ⟨⟨_, o, ho, hfd⟩, _⟩ := hall [⟨.directIo, false⟩, ⟨.openSource false, .ok 5⟩,
    ⟨.createDestination, .ok true⟩, ⟨.clock, none⟩, ⟨.copyIsEnabled, true⟩, ⟨.directIo, true⟩,
    ⟨.close 5, none⟩, ⟨.openSource true, .ok 6⟩, ⟨.lseek 6 0, none⟩, ⟨.read 6, .ok 0⟩,
    ⟨.unlockRange, none⟩, ⟨.close 5, none⟩] 0 0 0 rfl
  rw [List.mem_singleton.mp ho] at hfd
  cases hfd

end TokuBackup.DoBackup.SourceFd

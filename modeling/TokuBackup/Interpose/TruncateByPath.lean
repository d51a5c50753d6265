import TokuBackup.Interpose.Aside
import TokuBackup.Kernel.Content

/-!
# Truncating a file by its path

During a session `manager::truncate` looks for the source file in the table by the path of the
backup's file, and uses what it finds. The other calls and the copier put it there under the
path in the source directory. `truncate_captured_iff` says what follows: the call is captured
as it should be only for a file that is its own destination.
-/

namespace TokuBackup.Interpose

open Kernel Table Lib Prog
open DoBackup (Errno)

/-! ## The file and its copy -/

/-- The manager with its table, a file of the application, and its copy in the backup if there
is one. -/
structure World where
  manager : Manager
  table : Path → Option Ptr
  source : Content
  copy : Option Content

/-- The path of the call is resolved to `full`, and the copy is at `dest`. -/
def World.reply (full dest : Path) : (o : Op) → World → Option o.Answer
  | .realpath .truncate _, _ => some (.ok full)
  | .tableGet path, w => some (w.table path)
  | .backup (.truncate path _), w =>
    if path = dest then some (if w.copy.isSome then .ok 0 else .error Errno.enoent) else none
  | o, w => Op.reply o w.manager

/-- The real call returns 0 when it succeeds, and fails for a negative length. -/
def World.allows : (o : Op) → World → o.Answer → Bool
  | .real (.truncate _ length), _, (r : Except Errno Int) =>
    match r with
    | .ok v => v = 0 ∧ 0 ≤ length
    | .error _ => true
  | _, _, _ => true

def World.next (o : Op) (w : World) (r : o.Answer) : World :=
  let w' := { w with manager := Op.next o w.manager r }
  match o, r with
  | .real (.truncate _ length), (r : Except Errno Int) =>
    match r with
    | .ok _ => { w' with source := w.source.truncate length.toNat }
    | .error _ => w'
  | .backup (.truncate _ length), (r : Except Errno Nat) =>
    match r with
    | .ok _ => { w' with copy := w.copy.map fun c => c.truncate length.toNat }
    | .error _ => w'
  | .tablePut file, _ =>
    match (w.manager.source file).fullPath with
    | some name => { w' with table := Function.update w.table name (some file) }
    | none => w'
  | .tableRemove _ name, _ => { w' with table := Function.update w.table name none }
  | _, _ => w'

/-- The operations on the files, with a record of all operations. -/
def truncateHandler (full dest : Path) : Handler Op.Answer (World × List Op) :=
  Handler.recorded ⟨World.reply full dest, World.allows, World.next⟩

/-- The operation truncates a file. -/
def Op.truncates : Op → Bool
  | .real (.truncate _ _) => true
  | .backup (.truncate _ _) => true
  | _ => false

/-- The range that a truncation changes. -/
def truncatedRange (length : Int) : Range := ⟨u64 length, llongMax⟩

/-- The call is captured: it returns what the real call has returned; the files are truncated
while the range is locked on the source file that the table has under the file's path; the
references and the table stay; and when the file is truncated its copy gets the same length
and is the same wherever it was. -/
structure TruncateCaptured (full : Path) (length : Int) (w w' : World) (es : List Event)
    (x : Except Fault Int) (ops : List Op) : Prop where
  returns : ∃ (path : Path) (r : Except Errno Int), es = [⟨.real (.truncate path length), r⟩] ∧
    x = .ok (value r)
  excludes : ∃ file before within after, w.table full = some file ∧
    ops = before ++ .lockRange file (truncatedRange length) ::
      (within ++ .unlockRange file (truncatedRange length) :: after) ∧
    ∀ o ∈ before ++ after, o.truncates = false
  references : ∀ p, (w'.manager.source p).referenceCount = (w.manager.source p).referenceCount
  table : w'.table = w.table
  copy : x = .ok 0 → ∀ c, w.copy = some c → ∃ c', w'.copy = some c' ∧
    c'.len = w'.source.len ∧ ∀ i, c.byte i = w.source.byte i → c'.byte i = w'.source.byte i

/-! ## The section in the session -/

section

variable {full dest : Path} {w : World} {ops : List Op} {p : Ptr} {length : Int}

/-- The references that the world counts for a file. -/
def World.references (w : World) (p : Ptr) : Nat := (w.manager.source p).referenceCount

/-- The range and the reference are given back. -/
def World.finished (w : World) (p : Ptr) (g : Range) : World :=
  { w with manager := released (unlockedRange w.manager p g) p }

theorem references_finished (w : World) (p : Ptr) (g : Range) (q : Ptr) :
    (w.finished p g).references q = if q = p then w.references q - 1 else w.references q := by
  unfold World.references World.finished released unlockedRange
  by_cases hq : q = p
  · subst hq
    rw [if_pos rfl, Manager.source_modify_self, Manager.source_modify_self]
  · rw [if_neg hq, Manager.source_modify_ne _ hq, Manager.source_modify_ne _ hq]

/-- The end of the section, with the range and a reference. -/
theorem all_finish {g : Range} {path : Path} {user_error : Int}
    {Q : List Event → Except Fault Int → World × List Op → Prop}
    (hmem : g ∈ (w.manager.source p).lockedRanges) (hcount : 0 < w.references p)
    (hQ : Q [] (.ok user_error) (w.finished p g,
      ops ++ [.unlockRange p g] ++ [.referenceCount p] ++ [.dropReference p])) :
    All (truncateHandler full dest)
      (do
        let unlocked ← unlockRangeReporting p g
        removeReference p
        if unlocked then return user_error else return value (← real (.truncate path length)))
      (w, ops) Q := by
  unfold unlockRangeReporting removeReference
  refine all_reply (unlockRange_found hmem) ?_
  refine all_reply (r := w.references p) ?_ ?_
  · change some ((unlockedRange w.manager p g).source p).referenceCount = some (w.references p)
    unfold unlockedRange
    rw [Manager.source_modify_self]
    rfl
  · change All _ ((if w.references p > 0 then _ else _) >>= _) _ Q
    rw [if_pos hcount]
    exact all_reply (r := ()) rfl hQ

/-- The file that was found is locked, and has one more reference. -/
def World.entered (w : World) (p : Ptr) (g : Range) : World :=
  { w with manager := lockedRange (referenced w.manager p) p g }

theorem references_entered (w : World) (p : Ptr) (g : Range) (q : Ptr) :
    (w.entered p g).references q = if q = p then w.references q + 1 else w.references q := by
  unfold World.references World.entered lockedRange referenced
  by_cases hq : q = p
  · subst hq
    rw [if_pos rfl, Manager.source_modify_self, Manager.source_modify_self]
  · rw [if_neg hq, Manager.source_modify_ne _ hq, Manager.source_modify_ne _ hq]

/-- A system call has failed. -/
def World.failed (w : World) (e : Errno) : World :=
  { w with manager := { w.manager with errno := e.code } }

/-- The file is truncated. -/
def World.cut (w : World) (length : Int) : World :=
  { w with source := w.source.truncate length.toNat }

/-- The copy is truncated. -/
def World.cutCopy (w : World) (length : Int) : World :=
  { w with copy := w.copy.map fun c => c.truncate length.toNat }

/-- The world after the calls on the files: the references and the table are as they were, and
the copy follows the file. -/
structure World.Followed (w w' : World) (n : Int) : Prop where
  references : ∀ p, w'.references p = w.references p
  table : w'.table = w.table
  copy : n = 0 → ∀ c, w.copy = some c → ∃ c', w'.copy = some c' ∧
    c'.len = w'.source.len ∧ ∀ i, c.byte i = w.source.byte i → c'.byte i = w'.source.byte i

/-- What comes of the section: it uses a null pointer, or truncates the files while the range is
locked on the file that the table has under the backup's path. -/
def SectionOutcome (full dest : Path) (length : Int) (w : World) (ops : List Op) (es : List Event)
    (x : Except Fault Int) (s' : World × List Op) : Prop :=
  (w.table dest = none ∧ x = .error .pointer) ∨
    ∃ (p : Ptr) (r : Except Errno Int) (within : List Op), w.table dest = some p ∧
      es = [⟨.real (.truncate full length), r⟩] ∧ x = .ok (value r) ∧
      w.Followed s'.1 (value r) ∧
      s'.2 = ops ++ [.lock .table, .tableGet dest, .addReference p, .unlock .table] ++
        .lockRange p (truncatedRange length) :: (within ++
          .unlockRange p (truncatedRange length) :: [.referenceCount p, .dropReference p]) ∧
      ∀ o ∈ within, ∀ file g, o ≠ .lockRange file g

/-- The end of the section gives its outcome, when only the files have changed since it was
entered. -/
theorem all_finishSection {w' : World} {ops' within : List Op} {r : Except Errno Int} {path : Path}
    (htable : w.table dest = some p)
    (hsource : w'.manager.source = (w.entered p (truncatedRange length)).manager.source)
    (htable' : w'.table = w.table)
    (hcopy : value r = 0 → ∀ c, w.copy = some c → ∃ c', w'.copy = some c' ∧
      c'.len = w'.source.len ∧ ∀ i, c.byte i = w.source.byte i → c'.byte i = w'.source.byte i)
    (hops : ops' = ops ++ [.lock .table, .tableGet dest, .addReference p, .unlock .table] ++
      .lockRange p (truncatedRange length) :: within)
    (hwithin : ∀ o ∈ within, ∀ file g, o ≠ .lockRange file g) :
    All (truncateHandler full dest)
      (do
        let unlocked ← unlockRangeReporting p (truncatedRange length)
        removeReference p
        if unlocked then return value r else return value (← real (.truncate path length)))
      (w', ops') fun es x s' =>
        SectionOutcome full dest length w ops (⟨.real (.truncate full length), r⟩ :: es) x s' := by
  have hreferences :
    ∀ q, w'.references q = if q = p then w.references q + 1 else w.references q := by
    intro q
    rw [← references_entered w p (truncatedRange length) q, World.references, World.references,
      hsource]
  have hmem : truncatedRange length ∈ (w'.manager.source p).lockedRanges := by
    rw [hsource]
    exact mem_lockedRange _ _ _
  have hcount : 0 < w'.references p := by
    rw [hreferences, if_pos rfl]
    omega
  refine all_finish hmem hcount (Or.inr ⟨p, r, within, htable, rfl, rfl, ⟨?_, htable', hcopy⟩, ?_,
    hwithin⟩)
  · intro q
    rw [references_finished, hreferences]
    split <;> omega
  · rw [hops]
    simp

theorem all_truncateInSession (path : Path) (hcapture : w.manager.captureEnabled = true) :
    All (truncateHandler full dest) (truncateInSession path full dest length) (w, ops)
      (SectionOutcome full dest length w ops) := by
  unfold truncateInSession
  refine all_call_reply rfl (all_call_reply (r := w.table dest) rfl ?_)
  cases htable : w.table dest with
  | none => exact Or.inl ⟨htable, rfl⟩
  | some p =>
    refine all_call_reply (r := ())
      rfl (all_call_reply (r := ()) rfl (all_call_reply (r := ()) rfl ?_))
    refine all_call_answer rfl fun (r : Except Errno Int) hallows => ?_
    let opened : List Op := ops ++ [.lock .table] ++ [.tableGet dest] ++ [.addReference p] ++
      [.unlock .table] ++ [.lockRange p (truncatedRange length)]
    let captured : List Op := opened ++ [.real (.truncate full length)] ++ [.captureIsEnabled]
    cases r with
    | error e =>
      refine @all_finishSection full dest w ops p length
        ((w.entered p (truncatedRange length)).failed e) (opened ++ [.real (.truncate full length)])
        [.real (.truncate full length)] (.error e) path htable rfl rfl ?_ ?_ ?_
      · intro h
        cases h
      · simp [opened]
      · simp
    | ok v =>
      obtain ⟨rfl, hlength⟩ : v = 0 ∧ 0 ≤ length := of_decide_eq_true hallows
      refine all_reply (r := true) (congrArg some hcapture) ?_
      -- the copy is truncated as well, if there is one
      let cut := (w.entered p (truncatedRange length)).cut length
      have hreply :
        (truncateHandler full dest).reply (.backup (.truncate dest length)) (cut, captured) =
          some (if w.copy.isSome then .ok 0 else .error Errno.enoent : Except Errno Nat) :=
            if_pos rfl
      have hwithin : ∀ o ∈ [Op.real (.truncate full length), .captureIsEnabled,
          .backup (.truncate dest length)], ∀ file g, o ≠ .lockRange file g := by simp
      cases hcopy : w.copy with
      | none =>
        rw [hcopy] at hreply
        refine all_reply (s := (cut, captured)) hreply ?_
        refine @all_finishSection full dest w ops p length (cut.failed .enoent)
          (captured ++ [.backup (.truncate dest length)]) _ (.ok 0)
            path htable rfl rfl ?_ ?_ hwithin
        · intro _ c hc
          rw [hcopy] at hc
          cases hc
        · simp [captured, opened]
      | some c =>
        rw [hcopy] at hreply
        refine all_reply (s := (cut, captured)) hreply ?_
        refine @all_finishSection full dest w ops p length (cut.cutCopy length)
          (captured ++ [.backup (.truncate dest length)]) _ (.ok 0)
            path htable rfl rfl ?_ ?_ hwithin
        · intro _ c' hc'
          obtain rfl : c = c' := Option.some.inj (hcopy.symm.trans hc')
          refine ⟨c.truncate length.toNat, congrArg (Option.map _) hcopy, rfl, fun i hbyte => ?_⟩
          exact Content.truncate_byte_congr hbyte
        · simp [captured, opened]

/-- The whole call: the section, with the session lock around it. -/
theorem all_managerTruncate {D : DirectorySet} (path : Path) (hsession : w.manager.session = some D)
    (htranslate : D.translatePrefixOfRealpath full = some dest)
    (hcapture : w.manager.captureEnabled = true) :
    All (truncateHandler full dest) (managerTruncate path length) (w, []) fun es x s' =>
      ∃ s'', SectionOutcome full dest length
        w [.realpath .truncate path, .rdlock, .session] es x s'' ∧
        s'.1 = s''.1 ∧ (x ≠ .error .pointer → s'.2 = s''.2 ++ [.rdunlock]) := by
  have hinside := D.prefix_of_translate htranslate
  have hpath : (translatePrefixOfRealpath D full : CallM Path) = pure dest := by
    unfold translatePrefixOfRealpath
    rw [htranslate]
  unfold managerTruncate
  refine all_reply (r := (.ok full : Except Errno Path)) rfl ?_
  refine all_reply (r := ()) rfl (all_reply (r := some D) (congrArg some hsession) ?_)
  change All _ (if D.isPrefixOfRealpath full = true then _ else _) _ _
  rw [if_pos hinside, hpath]
  change All _
    (truncateInSession path full dest length >>= fun e => rdunlock >>= fun _ => pure e) _ _
  refine All.bind (all_truncateInSession path hcapture) ?_ ?_
  · intro es e s' h
    refine ⟨s', h, rfl, fun hne => ?_⟩
    rcases h with ⟨_, hx⟩ | ⟨_, _, _, _, _, hx, _⟩
    · exact absurd hx hne
    · cases hx
  · intro es v s' h
    rw [← List.append_nil es] at h
    exact ⟨s', h, rfl, fun _ => rfl⟩

end

/-- The table has its files under their names. -/
def World.Named (w : World) : Prop :=
  ∀ path p, w.table path = some p → (w.manager.source p).fullPath = some path

/-- A `truncate` in a session is captured exactly when the path in the backup is the file's own
path, and the table has it. -/
theorem truncate_captured_iff (D : DirectorySet) (path full dest : Path) (length : Int)
    (w w' : World) (es : List Event) (x : Except Fault Int) (ops : List Op)
    (hsession : w.manager.session = some D)
    (htranslate : D.translatePrefixOfRealpath full = some dest)
    (hcapture : w.manager.captureEnabled = true) (hnamed : w.Named)
    (hrun : exec (truncateHandler full dest) (managerTruncate path length) (w, []) es =
      some (x, (w', ops))) :
    TruncateCaptured full length w w' es x ops ↔ dest = full ∧ (w.table full).isSome := by
  obtain ⟨⟨w'', ops'⟩, houtcome, rfl, hops⟩ :=
    all_iff.mp (all_managerTruncate path hsession htranslate hcapture) es x _ hrun
  rcases houtcome with ⟨htable, rfl⟩ | ⟨p, r, within, htable, rfl, rfl, hfollowed, hops', hwithin⟩
  · -- the null pointer is used
    refine iff_of_false ?_ ?_
    · intro h
      obtain ⟨_, _, _, hx⟩ := h.returns
      cases hx
    · rintro ⟨rfl, hsome⟩
      rw [htable] at hsome
      cases hsome
  · have hlog := hops (by simp)
    rw [hops'] at hlog
    constructor
    · intro h
      obtain ⟨file, before, _, after, hfile, hlocked, _⟩ := h.excludes
      have hmem : Op.lockRange file (truncatedRange length) ∈ ops := by
        rw [hlocked]
        simp
      obtain rfl : file = p := by
        have hnot : Op.lockRange file (truncatedRange length) ∉ within :=
          fun hin => hwithin _ hin file _ rfl
        rw [show ops = _ from hlog] at hmem
        simpa [hnot] using hmem
      have hname := (hnamed _ _ hfile).symm.trans (hnamed _ _ htable)
      exact ⟨(Option.some.inj hname).symm, by rw [hfile]; rfl⟩
    · rintro ⟨rfl, _⟩
      refine ⟨⟨_, r, rfl, rfl⟩, ⟨p, [.realpath .truncate path, .rdlock, .session, .lock .table,
        .tableGet dest, .addReference p, .unlock .table], within,
        [.referenceCount p, .dropReference p, .rdunlock], htable, ?_, ?_⟩, hfollowed.references,
        hfollowed.table, ?_⟩
      · rw [show ops = _ from hlog]
        simp
      · simp [Op.truncates]
      · intro hzero
        exact hfollowed.copy (Except.ok.inj hzero)

/-- A session of the directory set, with one file that is in the table under the path, and an
empty copy. -/
def oneEntry (D : DirectorySet) (path : Path) : World where
  manager := { capturing D with source := fun _ => ⟨⟨some path, 1, false, none⟩, []⟩ }
  table p := if p = path then some 1 else none
  source := .empty
  copy := some .empty

theorem oneEntry_named (D : DirectorySet) (path : Path) : (oneEntry D path).Named := by
  intro name p h
  obtain ⟨rfl, _⟩ := Option.ite_none_right_eq_some.mp h
  rfl

/-- A directory that is its own destination. -/
def ownDestination : DirectorySet := ⟨[("/s".toList, "/s".toList)], fun _ => false⟩

theorem truncate_captured_ownDestination : ∃ w' ops,
    exec (truncateHandler "/s/x".toList "/s/x".toList) (managerTruncate "/s/x".toList 0)
      (oneEntry ownDestination "/s/x".toList, [])
      [⟨.real (.truncate "/s/x".toList 0), .ok 0⟩] = some (.ok 0, (w', ops)) ∧
    TruncateCaptured "/s/x".toList 0 (oneEntry ownDestination "/s/x".toList) w'
      [⟨.real (.truncate "/s/x".toList 0), .ok 0⟩] (.ok 0) ops := by
  have hrun : ∃ w' ops, exec (truncateHandler "/s/x".toList "/s/x".toList)
      (managerTruncate "/s/x".toList 0) (oneEntry ownDestination "/s/x".toList, [])
      [⟨.real (.truncate "/s/x".toList 0), .ok 0⟩] = some (.ok 0, (w', ops)) := ⟨_, _, rfl⟩
  obtain ⟨w', ops, hrun⟩ := hrun
  refine ⟨w', ops, hrun, (truncate_captured_iff ownDestination _ "/s/x".toList "/s/x".toList 0
    (oneEntry ownDestination "/s/x".toList) w' _ _ ops rfl (by decide) rfl (oneEntry_named _ _)
    hrun).mpr ⟨rfl, rfl⟩⟩

/-- The application has the file open, and truncates it by its path. -/
theorem not_truncate_captured_openFile : ¬ ∀ (D : DirectorySet) (path full dest : Path)
    (length : Int) (w w' : World) (es : List Event) (x : Except Fault Int) (ops : List Op),
    w.manager.session = some D → D.translatePrefixOfRealpath full = some dest →
    w.manager.captureEnabled = true → w.Named →
    exec (truncateHandler full dest) (managerTruncate path length) (w, []) es =
      some (x, (w', ops)) →
    TruncateCaptured full length w w' es x ops := by
  intro h
  have hrun : ∃ w' ops, exec (truncateHandler "/s/x".toList "/b/x".toList)
      (managerTruncate "/s/x".toList 0) (oneEntry oneDirectory "/s/x".toList, []) [] =
        some (.error .pointer, (w', ops)) := ⟨_, _, rfl⟩
  obtain ⟨w', ops, hrun⟩ := hrun
  obtain ⟨_, _, _, hx⟩ := (h oneDirectory _ "/s/x".toList "/b/x".toList 0
    (oneEntry oneDirectory "/s/x".toList) w' _ _ ops rfl (by decide) rfl (oneEntry_named _ _)
    hrun).returns
  cases hx

end TokuBackup.Interpose

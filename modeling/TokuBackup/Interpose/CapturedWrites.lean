import TokuBackup.Interpose.Spared
import TokuBackup.Kernel.Content

/-!
# What a captured write copies

`manager::write` and `manager::pwrite` perform the real call and then write to the destination.
The events of a call say which bytes got to the source and which to the backup, and where;
`mirrored_iff` says when these are the same. The backup is given the whole buffer, whatever the
real call has returned: `pwrite` leaves it out when nothing was written, `write` never does. The
position of `write` is the one that the description has, and that of the source is the kernel's.
-/

namespace TokuBackup.Interpose

open Kernel Table Lib Prog
open DoBackup (Errno)

/-- The two calls that write. -/
inductive WriteCall where
  | write
  | pwrite (offset : Int)

namespace WriteCall

def app (fd : Nat) (buf : List UInt8) : WriteCall → AppCall
  | write => .write fd buf
  | pwrite offset => .pwrite fd buf offset

def method (fd : Nat) (buf : List UInt8) : WriteCall → CallM Int
  | write => managerWrite fd buf
  | pwrite offset => managerPwrite fd buf offset

/-- Where the destination is written. -/
def position (d : Description) : WriteCall → Int
  | write => d.offset
  | pwrite offset => offset

end WriteCall

/-! ## The bytes that are written -/

/-- The first `n` bytes of the buffer, at the position, unless there are none. -/
def piece (position : Int) (buf : List UInt8) (n : Int) : List (Int × List UInt8) :=
  if buf.take n.toNat = [] then [] else [(position, buf.take n.toNat)]

/-- What the real calls write to the source, when the kernel writes at `landing`. -/
def sourceWrites (landing : Int) (es : List Event) : List (Int × List UInt8) :=
  es.flatMap fun
    | ⟨.real (.write _ buf), (r : Except Errno Int)⟩ => piece landing buf (value r)
    | ⟨.real (.pwrite _ buf _), (r : Except Errno Int)⟩ => piece landing buf (value r)
    | _ => []

/-- What is written to the backup, to any of its files. -/
def backupWrites (es : List Event) : List (Nat × Int × List UInt8) :=
  es.flatMap fun
    | ⟨.backup (.pwrite id buf offset), (.ok n : Except Errno Nat)⟩ =>
      (piece offset buf n).map (Prod.mk id)
    | _ => []

/-- The destination is written where the source is, with the same bytes, and nothing else of
the backup. -/
def Mirrored (dest : DestinationFile) (landing : Int) (es : List Event) : Prop :=
  backupWrites es = (sourceWrites landing es).map (Prod.mk dest.id)

/-- `pwrite` on the backup writes everything, and fails at a negative offset. -/
def Whole : Event → Prop
  | ⟨.backup (.pwrite _ buf offset), (r : Except Errno Nat)⟩ =>
    if 0 ≤ offset then r = .ok buf.length else ∃ e, r = .error e
  | _ => True

theorem whole_pwrite {id : Nat} {buf : List UInt8} {offset : Int} {r : Except Errno Nat} :
    Whole ⟨.backup (.pwrite id buf offset), r⟩ ↔
      if 0 ≤ offset then r = .ok buf.length else ∃ e, r = .error e := Iff.rfl

/-- The content of a file after a list of writes. -/
def written (c : Content) (ws : List (Int × List UInt8)) : Content :=
  ws.foldl (fun c w => c.write w.1.toNat w.2) c

/-- The writes to one file of the backup. -/
def writesTo (dest : DestinationFile) (ws : List (Nat × Int × List UInt8)) :
    List (Int × List UInt8) :=
  (ws.filter fun w => w.1 = dest.id).map Prod.snd

theorem writesTo_map (dest : DestinationFile) (ws : List (Int × List UInt8)) :
    writesTo dest (ws.map (Prod.mk dest.id)) = ws := by
  induction ws with
  | nil => rfl
  | cons w ws ih => simpa [writesTo] using ih

/-- Where two files agree, they agree after the same writes. -/
theorem written_byte {c c' : Content} {i : Nat} (h : c'.byte i = c.byte i)
    (ws : List (Int × List UInt8)) : (written c' ws).byte i = (written c ws).byte i := by
  induction ws generalizing c c' with
  | nil => exact h
  | cons w ws ih =>
    apply ih
    by_cases hin : w.1.toNat ≤ i ∧ i < w.1.toNat + w.2.length
    · rw [Content.write_byte_in hin, Content.write_byte_in hin]
    · rw [Content.write_byte_out hin, Content.write_byte_out hin, h]

theorem backupWrites_append (es es' : List Event) :
    backupWrites (es ++ es') = backupWrites es ++ backupWrites es' := List.flatMap_append

theorem sourceWrites_append (landing : Int) (es es' : List Event) :
    sourceWrites landing (es ++ es') = sourceWrites landing es ++ sourceWrites landing es' :=
  List.flatMap_append

/-! ## The methods -/

/-- The program performs no real call, returns when `pwrite` on the backup is whole, and then
has written `ws` to the backup. -/
def Wrote {α : Type} (ws : List (Nat × Int × List UInt8)) (p : CallM α) (s : Manager) : Prop :=
  All managerHandler p s fun es x _ => (∀ e ∈ es, Whole e) →
    (∃ a, x = .ok a) ∧ (∀ landing, sourceWrites landing es = []) ∧ backupWrites es = ws

section

variable {α β : Type} {ws ws' : List (Nat × Int × List UInt8)} {s : Manager}

theorem wrote_pure (a : α) : Wrote [] (pure a : CallM α) s := fun _ => ⟨⟨a, rfl⟩, fun _ => rfl, rfl⟩

theorem wrote_reply {o : Op} {f : o.Answer → CallM β} {r : o.Answer} (hr : Op.reply o s = some r)
    (hf : Wrote ws (f r) (Op.next o s r)) : Wrote ws (call o >>= f) s :=
  all_call_reply (H := managerHandler) hr hf

theorem Wrote.bind {p : CallM α} {f : α → CallM β} (hp : Wrote ws p s)
    (hf : ∀ a s', Wrote ws' (f a) s') : Wrote (ws ++ ws') (p >>= f) s := by
  refine All.bind hp ?_ ?_
  · intro es e s' h hwhole
    obtain ⟨⟨a, ha⟩, _⟩ := h hwhole
    cases ha
  · intro es a s' h
    refine (hf a s').mono fun es' x s'' h' hwhole => ?_
    rw [List.forall_mem_append] at hwhole
    obtain ⟨_, hsource, hbackup⟩ := h hwhole.1
    obtain ⟨hx, hsource', hbackup'⟩ := h' hwhole.2
    refine ⟨hx, fun landing => ?_, ?_⟩
    · rw [sourceWrites_append, hsource, hsource', List.append_nil]
    · rw [backupWrites_append, hbackup, hbackup']

/-- What a write of the buffer at the position captures. -/
def capturedAt (dest : DestinationFile) (position : Int) (buf : List UInt8) :
    List (Nat × Int × List UInt8) :=
  if 0 ≤ position then (piece position buf buf.length).map (Prod.mk dest.id) else []

theorem wrote_destinationPwrite (dest : DestinationFile) (buf : List UInt8) (offset : Int) :
    Wrote (capturedAt dest offset buf) (destinationPwrite dest buf offset) s := by
  unfold destinationPwrite capturedAt
  cases hbuf : buf with
  | nil =>
    have hnothing :
      (if 0 ≤ offset then (piece offset [] 0).map (Prod.mk dest.id) else []) = [] := by
      simp [piece]
    exact fun _ => ⟨⟨0, rfl⟩, fun _ => rfl, hnothing.symm⟩
  | cons b bs =>
    rw [← hbuf]
    have hlen : buf.length = bs.length + 1 := by rw [hbuf, List.length_cons]
    have htake : buf.take buf.length = buf := List.take_length
    rw [hlen, pwriteLoop, if_neg (Nat.succ_ne_zero _), ← hlen, htake]
    refine all_call_answer rfl fun (r : Except Errno Nat) _ => ?_
    cases r with
    | error e =>
      refine all_call_reply (r := ()) rfl fun hwhole => ⟨⟨e.code, rfl⟩, fun _ => rfl, ?_⟩
      have hfails := whole_pwrite.mp (hwhole _ List.mem_cons_self)
      by_cases hoffset : 0 ≤ offset
      · rw [if_pos hoffset] at hfails
        cases hfails
      · rw [if_neg hoffset]
        rfl
    | ok wr =>
      have hwhole_iff : Whole ⟨.backup (.pwrite dest.id buf offset), (.ok wr : Except Errno Nat)⟩ →
          0 ≤ offset ∧ wr = buf.length := by
        intro hwhole
        have hall := whole_pwrite.mp hwhole
        by_cases hoffset : 0 ≤ offset
        · rw [if_pos hoffset] at hall
          exact ⟨hoffset, Except.ok.inj hall⟩
        · rw [if_neg hoffset] at hall
          obtain ⟨e, he⟩ := hall
          cases he
      by_cases hwr : wr = buf.length
      · subst hwr
        dsimp only
        rw [if_neg (by omega), Nat.sub_self]
        have hdone : pwriteLoop dest buf bs.length 0 (offset + buf.length) = pure 0 := by
          cases bs.length <;> rfl
        rw [hdone]
        refine fun hwhole => ⟨⟨0, rfl⟩, fun _ => rfl, ?_⟩
        obtain ⟨hoffset, _⟩ := hwhole_iff (hwhole _ List.mem_cons_self)
        rw [if_pos hoffset]
        simp [backupWrites]
      · refine all_true.mono fun es x s' _ hwhole => absurd ?_ hwr
        exact (hwhole_iff (hwhole _ List.mem_cons_self)).2

theorem wrote_unlockRangeReporting (file : Ptr) (r : Range) :
    Wrote [] (unlockRangeReporting file r) s := by
  unfold unlockRangeReporting
  refine wrote_reply rfl ?_
  split
  · exact wrote_pure true
  · exact wrote_reply rfl (wrote_pure false)

/-- What a write captures in a session. -/
theorem wrote_withSession {file : Ptr} {D : DirectorySet} {dest : DestinationFile}
    (buf : List UInt8) (offset : Int) (hsession : s.session = some D)
    (hdest : (s.source file).destinationFile = some dest) :
    Wrote (capturedAt dest offset buf) (withSession (captureWrite file buf offset)) s := by
  unfold withSession
  refine wrote_reply rfl (wrote_reply (congrArg some hsession) ?_)
  have hcapture : Wrote (capturedAt dest offset buf ++ []) (captureWrite file buf offset D)
      (Op.next .session (Op.next .rdlock s ()) (some D)) := by
    unfold captureWrite
    refine wrote_reply (congrArg some hdest) ?_
    exact (wrote_destinationPwrite dest buf offset).bind fun _ _ => wrote_pure ()
  have hunlock : ∀ s', Wrote [] rdunlock s' :=
    fun s' => wrote_reply (f := pure) (r := ()) rfl (wrote_pure ())
  have hboth := hcapture.bind fun _ s' => hunlock s'
  simp only [List.append_nil] at hboth
  exact hboth

end

/-! ## The two calls -/

/-- What the call captures when the real call has returned `n`. -/
def WriteCall.captured (dest : DestinationFile) (d : Description) (buf : List UInt8) (n : Int) :
    WriteCall → List (Nat × Int × List UInt8)
  | .write => capturedAt dest d.offset buf
  | .pwrite offset => if 0 < n then capturedAt dest offset buf else []

/-- The real call has done what is captured. -/
def WriteCall.Faithful (d : Description) (landing : Nat) (buf : List UInt8) (n : Int) :
    WriteCall → Prop
  | .write => buf = [] ∨ (n = buf.length ∧ (landing : Int) = d.offset) ∨ (n ≤ 0 ∧ d.offset < 0)
  | .pwrite offset => n ≤ 0 ∨ (n = buf.length ∧ (landing : Int) = offset)

theorem piece_nonpos (position : Int) (buf : List UInt8) {n : Int} (h : n ≤ 0) :
    piece position buf n = [] := by
  rw [piece, Int.toNat_of_nonpos h, List.take_zero, if_pos rfl]

theorem piece_pos {position : Int} {buf : List UInt8} {n : Int} (h : 0 < n) (hle : n ≤ buf.length) :
    piece position buf n = [(position, buf.take n.toNat)] := by
  have hne : buf.take n.toNat ≠ [] := by
    intro hnil
    have hlen := congrArg List.length hnil
    rw [List.length_take, List.length_nil] at hlen
    omega
  rw [piece, if_neg hne]

/-- A captured write of the whole buffer is the one of the first `n` bytes elsewhere only when
these are all, and the place is the same. -/
theorem capturedAt_eq_iff {dest : DestinationFile} {buf : List UInt8} {position : Int}
    {landing : Nat} {n : Int} (hn : 0 < n) (hle : n ≤ buf.length) :
    capturedAt dest position buf = (piece landing buf n).map (Prod.mk dest.id) ↔
      n = buf.length ∧ (landing : Int) = position := by
  rw [piece_pos hn hle]
  unfold capturedAt
  constructor
  · intro h
    by_cases hpos : 0 ≤ position
    · rw [if_pos hpos, piece_pos (by omega) (Int.le_refl _)] at h
      simp only [List.map_cons, List.map_nil, List.cons.injEq, Prod.mk.injEq] at h
      obtain ⟨⟨_, hplace, hbytes⟩, _⟩ := h
      have hlen := congrArg List.length hbytes
      simp only [List.length_take] at hlen
      omega
    · rw [if_neg hpos] at h
      cases h
  · intro h
    obtain ⟨hall, rfl⟩ := h
    rw [if_pos (by omega), hall, piece_pos (by omega) (Int.le_refl _)]

theorem captured_eq_iff (w : WriteCall) (dest : DestinationFile) (d : Description) (landing : Nat)
    (buf : List UInt8) (n : Int) (hle : n ≤ buf.length) :
    w.captured dest d buf n = (piece landing buf n).map (Prod.mk dest.id) ↔
      w.Faithful d landing buf n := by
  cases w with
  | pwrite offset =>
    dsimp only [WriteCall.captured, WriteCall.Faithful]
    by_cases hn : 0 < n
    · rw [if_pos hn, capturedAt_eq_iff hn hle]
      exact (or_iff_right (by omega)).symm
    · rw [if_neg hn, piece_nonpos _ _ (by omega)]
      exact iff_of_true rfl (Or.inl (by omega))
  | write =>
    dsimp only [WriteCall.captured, WriteCall.Faithful]
    by_cases hn : 0 < n
    · rw [capturedAt_eq_iff hn hle]
      constructor
      · exact fun h => Or.inr (Or.inl h)
      · rintro (rfl | h | h)
        · exact absurd hle (by simp; omega)
        · exact h
        · omega
    · rw [piece_nonpos _ _ (by omega), List.map_nil]
      unfold capturedAt
      by_cases hbuf : buf = []
      · subst hbuf
        exact iff_of_true (by simp [piece]) (Or.inl rfl)
      · have hlen : 0 < buf.length := List.length_pos_iff.mpr hbuf
        by_cases hpos : 0 ≤ d.offset
        · rw [if_pos hpos, piece_pos (by omega) (Int.le_refl _)]
          refine iff_of_false (by simp) ?_
          rintro (h | h | h)
          · exact hbuf h
          · omega
          · omega
        · rw [if_neg hpos]
          exact iff_of_true rfl (Or.inr (Or.inr (by omega)))

section

variable {s : Manager} {d : Description} {D : DirectorySet} {dest : DestinationFile} {fd : Nat}
  {buf : List UInt8}

/-- What happens after the real call. -/
def After (w : WriteCall) (dest : DestinationFile) (d : Description) (fd : Nat)
    (buf : List UInt8) (es : List Event) : Prop :=
  ∃ (r : Except Errno Int) (rest : List Event), es = ⟨.real (w.app fd buf), r⟩ :: rest ∧
    ((∀ e ∈ rest, Whole e) → (∀ landing, sourceWrites landing rest = []) ∧
      backupWrites rest = w.captured dest d buf (value r))

/-- A program that follows the real call. -/
theorem after_wrote {w : WriteCall} {p : CallM Int} {s : Manager} (r : Except Errno Int)
    (h : Wrote (w.captured dest d buf (value r)) p s) :
    All managerHandler p s fun es _ _ => After w dest d fd buf (⟨.real (w.app fd buf), r⟩ :: es) :=
  h.mono fun es _ _ hes => ⟨r, es, rfl, fun hwhole => (hes hwhole).2⟩

/-- The session is open, and the file has the destination. -/
def Captures (D : DirectorySet) (file : Ptr) (dest : DestinationFile) (s : Manager) : Prop :=
  s.session = some D ∧ (s.source file).destinationFile = some dest

theorem Captures.after_real {file : Ptr} (h : Captures D file dest s) (c : AppCall) (g : Range)
    (r : Except Errno Int) :
    Captures D file dest (Op.next (.real c) (Op.next (.lockRange file g) s ()) r) := by
  have hlocked : Captures D file dest (Op.next (.lockRange file g) s ()) := by
    refine ⟨h.1, ?_⟩
    unfold Op.next
    rw [Manager.source_modify_self]
    exact h.2
  cases r with
  | ok v => exact hlocked
  | error e => exact hlocked

theorem managerWrite_after (hmap : s.map fd = some d) (h : Captures D d.source dest s) :
    All managerHandler (managerWrite fd buf) s fun es _ _ => After .write dest d fd buf es := by
  have hoffset : ((s.map fd).map Description.offset).getD 0 = d.offset := by rw [hmap]; rfl
  unfold managerWrite
  refine all_call_reply (reply_mapGet hmap) ?_
  refine all_call_reply rfl (all_call_reply (congrArg some hoffset) (all_call_reply rfl ?_))
  refine all_call_answer rfl fun (r : Except Errno Int) _ => after_wrote r ?_
  have hreal := h.after_real (.write fd buf) ⟨u64 d.offset, u64 (d.offset + buf.length)⟩ r
  have hcapture : ∀ t, Captures D d.source dest t → Wrote (capturedAt dest d.offset buf)
      (do
        unlock (.description fd)
        withSession (captureWrite d.source buf d.offset)
        let _ ← unlockRangeReporting d.source ⟨u64 d.offset, u64 (d.offset + buf.length)⟩
        return value r) t := by
    intro t ht
    refine wrote_reply rfl ?_
    have hrest := (wrote_withSession buf d.offset ht.1 ht.2).bind fun _ s' =>
      (wrote_unlockRangeReporting d.source ⟨u64 d.offset, u64 (d.offset + buf.length)⟩).bind
        fun _ s'' => wrote_pure (value r)
    simp only [List.append_nil] at hrest
    exact hrest
  by_cases hn : value r > 0
  · have honly : ∀ body, onlyIf (value r > 0) body = body := fun _ => if_pos hn
    simp only [honly]
    exact wrote_reply rfl (hcapture _ hreal)
  · have honly : ∀ body, onlyIf (value r > 0) body = pure () := fun _ => if_neg hn
    simp only [honly]
    exact hcapture _ hreal

theorem managerPwrite_after (offset : Int) (hmap : s.map fd = some d)
    (h : Captures D d.source dest s) :
    All managerHandler (managerPwrite fd buf offset) s fun es _ _ =>
      After (.pwrite offset) dest d fd buf es := by
  unfold managerPwrite
  refine all_call_reply (reply_mapGet hmap) ?_
  refine all_call_reply rfl ?_
  refine all_call_answer rfl fun (r : Except Errno Int) _ => after_wrote r ?_
  have hreal := h.after_real (.pwrite fd buf offset) ⟨u64 offset, u64 (offset + buf.length)⟩ r
  dsimp only [WriteCall.captured]
  by_cases hneg : value r < 0
  · simp only [if_pos hneg, if_neg (show ¬ 0 < value r by omega)]
    refine wrote_reply rfl ?_
    exact (wrote_unlockRangeReporting d.source _).bind fun _ s' =>
      @wrote_reply Int [] s' (.setErrno _) (fun _ => pure (value r)) () rfl (wrote_pure _)
  · by_cases hn : value r > 0
    · have honly : ∀ body, onlyIf (value r > 0) body = body := fun _ => if_pos hn
      simp only [if_neg hneg, if_pos hn, honly]
      have hrest := (wrote_withSession buf offset hreal.1 hreal.2).bind fun _ s' =>
        (wrote_unlockRangeReporting d.source ⟨u64 offset, u64 (offset + buf.length)⟩).bind
          fun _ s'' => wrote_pure (value r)
      simp only [List.append_nil] at hrest
      exact hrest
    · have honly : ∀ body, onlyIf (value r > 0) body = pure () := fun _ => if_neg hn
      simp only [if_neg hneg, if_neg hn, honly]
      exact (wrote_unlockRangeReporting d.source _).bind fun _ _ => wrote_pure (value r)

end

/-- A captured `write` or `pwrite` copies exactly what the real call has written, in the place
where it was written, when the real call is faithful to what is captured: it has written the
whole buffer at the position used for the backup, or, for `pwrite`, nothing. Then files that
were the same are the same again, and where two files agreed they still agree. -/
theorem mirrored_iff (w : WriteCall) (s s' : Manager) (fd : Nat) (d : Description)
    (D : DirectorySet) (dest : DestinationFile) (buf : List UInt8) (landing : Nat)
    (es : List Event) (x : Except Fault Int) (r : Except Errno Int)
    (hmap : s.map fd = some d) (hcaptures : Captures D d.source dest s)
    (hrun : exec managerHandler (w.method fd buf) s es = some (x, s'))
    (hreal : realAnswer es = some r) (hle : value r ≤ buf.length) (hwhole : ∀ e ∈ es, Whole e) :
    (Mirrored dest landing es ↔ w.Faithful d landing buf (value r)) ∧
      (Mirrored dest landing es → ∀ src dst : Content,
        (dst = src → written dst (writesTo dest (backupWrites es)) =
          written src (sourceWrites landing es)) ∧
        ∀ i, dst.byte i = src.byte i →
          (written dst (writesTo dest (backupWrites es))).byte i =
            (written src (sourceWrites landing es)).byte i) := by
  have hafter : After w dest d fd buf es := by
    cases w with
    | write => exact all_iff.mp (managerWrite_after hmap hcaptures) es x s' hrun
    | pwrite offset => exact all_iff.mp (managerPwrite_after offset hmap hcaptures) es x s' hrun
  obtain ⟨r', rest, rfl, hrest⟩ := hafter
  obtain rfl : r' = r := Option.some.inj hreal
  obtain ⟨hsource, hbackup⟩ := hrest fun e he => hwhole e (List.mem_cons_of_mem _ he)
  have hsource' : sourceWrites landing (⟨.real (w.app fd buf), r'⟩ :: rest) =
      piece landing buf (value r') := by
    have hfirst : sourceWrites landing [⟨.real (w.app fd buf), r'⟩] =
      piece landing buf (value r') := by
      cases w <;> exact List.append_nil _
    have happend := sourceWrites_append landing [⟨.real (w.app fd buf), r'⟩] rest
    rw [hfirst, hsource, List.append_nil] at happend
    exact happend
  have hbackup' : backupWrites (⟨.real (w.app fd buf), r'⟩ :: rest) =
      w.captured dest d buf (value r') := hbackup
  constructor
  · unfold Mirrored
    rw [hsource', hbackup']
    exact captured_eq_iff w dest d landing buf (value r') hle
  · intro hmirrored src dst
    unfold Mirrored at hmirrored
    rw [hmirrored, writesTo_map]
    exact ⟨fun hsame => by rw [hsame], fun i hbyte => written_byte hbyte _⟩

/-- The whole buffer is written. -/
theorem mirrored_write : Mirrored ⟨7, "/b/x".toList⟩ 0
    [⟨.real (.write 3 [97]), .ok 1⟩, ⟨.backup (.pwrite 7 [97] 0), .ok 1⟩] := by
  have hrun : ∃ s', exec managerHandler (managerWrite 3 [97]) openInSession
      [⟨.real (.write 3 [97]), .ok 1⟩, ⟨.backup (.pwrite 7 [97] 0), .ok 1⟩] = some (.ok 1, s') :=
    ⟨_, rfl⟩
  obtain ⟨s', hrun⟩ := hrun
  refine (mirrored_iff .write openInSession s' 3 ⟨0, 1⟩ oneDirectory ⟨7, "/b/x".toList⟩ [97] 0 _ _
    (.ok 1) rfl ⟨rfl, rfl⟩ hrun rfl (by decide) ?_).1.mpr (Or.inr (Or.inl ⟨rfl, rfl⟩))
  rw [List.forall_mem_cons, List.forall_mem_singleton]
  exact ⟨trivial, rfl⟩

/-- A `write` fails, and the backup is written all the same. -/
theorem not_mirrored_failingWrite : ¬ ∀ (w : WriteCall) (s s' : Manager) (fd : Nat)
    (d : Description) (D : DirectorySet) (dest : DestinationFile) (buf : List UInt8)
    (landing : Nat) (es : List Event) (x : Except Fault Int) (r : Except Errno Int),
    s.map fd = some d → Captures D d.source dest s →
    exec managerHandler (w.method fd buf) s es = some (x, s') → realAnswer es = some r →
    value r ≤ buf.length → (∀ e ∈ es, Whole e) → w.position d = landing →
      Mirrored dest landing es := by
  intro h
  have hrun : ∃ s', exec managerHandler (managerWrite 3 [97]) openInSession
      [⟨.real (.write 3 [97]), .error Errno.eio⟩, ⟨.backup (.pwrite 7 [97] 0), .ok 1⟩] =
        some (.ok (-1), s') := ⟨_, rfl⟩
  obtain ⟨s', hrun⟩ := hrun
  have hmirrored := h .write openInSession s' 3 ⟨0, 1⟩ oneDirectory ⟨7, "/b/x".toList⟩ [97] 0 _ _
    (.error Errno.eio) rfl ⟨rfl, rfl⟩ hrun rfl (by decide) ?_ rfl
  · exact absurd hmirrored (by unfold Mirrored; decide)
  · rw [List.forall_mem_cons, List.forall_mem_singleton]
    exact ⟨trivial, rfl⟩

end TokuBackup.Interpose

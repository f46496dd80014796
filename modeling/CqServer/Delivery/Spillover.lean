import CqServer.Lib.Run
import CqServer.Lib.Spool
import CqServer.TxLog.Frame

/-!
# The spill file of a route

`spillover.rs`: frames that do not fit a route's channel are appended to a file and read back
in order. A frame is written as a tag, its length in four bytes and its bytes. The file is a
queue of the frames between its two offsets (`Holds.write`, `Holds.read_cons`), as long as no
frame is so long that its length does not fit. The counter of pending frames is right if the file
was empty when it was opened (`spillover_fifo`).
-/

namespace CqServer.Delivery

open Lib List BigEndian

inductive OutboundFrame where
  | text (s : String)
  | binary (b : Bytes)
  deriving DecidableEq

def OutboundFrame.bytes : OutboundFrame → Bytes
  | .text s => asBytes s
  | .binary b => b

/-- `TAG_TEXT` and `TAG_BINARY`. -/
def OutboundFrame.tag : OutboundFrame → UInt8
  | .text _ => 0
  | .binary _ => 1

/-- `SpilloverError`; the file system itself does not fail. -/
inductive SpilloverError where
  /-- the file ends inside a frame -/
  | unexpectedEof
  | overCap (cap : Nat)
  | malformed
  deriving DecidableEq

structure SpilloverInner where
  file : Bytes
  readOffset : Nat
  writeOffset : Nat

def SpilloverInner.open (file : Bytes) : SpilloverInner := ⟨file, 0, file.length⟩

def encodeSpilled (f : OutboundFrame) : Bytes :=
  f.tag :: (encode 4 f.bytes.length ++ f.bytes)

theorem length_encodeSpilled (f : OutboundFrame) :
    (encodeSpilled f).length = 1 + 4 + f.bytes.length := by
  simp only [encodeSpilled, length_cons, length_append, length_encode]
  omega

def writeFrame (maxBytes : Nat) (sp : SpilloverInner) (f : OutboundFrame) :
    Except SpilloverError SpilloverInner :=
  let frameSize := 1 + 4 + f.bytes.length
  if maxBytes < sp.writeOffset - sp.readOffset + frameSize then .error (.overCap maxBytes)
  else
    .ok { sp with file := sp.file ++ encodeSpilled f, writeOffset := sp.writeOffset + frameSize }

def readExact (n : Nat) (rest : Bytes) : Option (Bytes × Bytes) :=
  if n ≤ rest.length then some (rest.take n, rest.drop n) else none

theorem readExact_append {n : Nat} {bs : Bytes} (h : bs.length = n) (rest : Bytes) :
    readExact n (bs ++ rest) = some (bs, rest) := by
  subst h
  rw [readExact, if_pos (by simp), take_left, drop_left]

def decodeSpilled (tag : UInt8) (payload : Bytes) : Except SpilloverError OutboundFrame :=
  if tag = 0 then
    match fromUtf8 payload with
    | some s => .ok (.text s)
    | none => .error .malformed
  else if tag = 1 then .ok (.binary payload)
  else .error .malformed

/-- What reading the file does: the offset moves on even if the frame is malformed. -/
inductive ReadOutcome where
  | nothing
  | failed (e : SpilloverError)
  | read (sp : SpilloverInner) (f : Except SpilloverError OutboundFrame)

/-- The locked section of `read_next_frame`, and the decoding of what it read. -/
def readNextFrame (sp : SpilloverInner) : ReadOutcome :=
  if sp.writeOffset ≤ sp.readOffset then .nothing
  else
    match sp.file.drop sp.readOffset with
    | [] => .nothing
    | tag :: rest =>
      match readExact 4 rest with
      | none => .failed .unexpectedEof
      | some (lenBytes, rest) =>
        let len := decode lenBytes
        match readExact len rest with
        | none => .failed .unexpectedEof
        | some (payload, _) =>
          .read { sp with readOffset := sp.readOffset + (1 + 4 + len) }
            (decodeSpilled tag payload)

theorem decodeSpilled_tag (f : OutboundFrame) : decodeSpilled f.tag f.bytes = .ok f := by
  cases f with
  | text s => simp only [decodeSpilled, OutboundFrame.tag, OutboundFrame.bytes, if_true,
      fromUtf8_asBytes]
  | binary b => rfl

/-! ## The file as a queue -/

def OutboundFrame.Sized (f : OutboundFrame) : Prop := f.bytes.length < 2 ^ 32

instance (f : OutboundFrame) : Decidable f.Sized := inferInstanceAs (Decidable (_ < _))

structure SpilloverInner.Holds (sp : SpilloverInner) (frames : List OutboundFrame) : Prop where
  spooled : Spooled encodeSpilled sp.file sp.readOffset frames
  written : sp.writeOffset = sp.file.length
  sized : ∀ f ∈ frames, f.Sized

namespace SpilloverInner.Holds

variable {sp : SpilloverInner} {frames : List OutboundFrame} {f : OutboundFrame}

theorem opened : (SpilloverInner.open []).Holds [] := ⟨.nil, rfl, nofun⟩

/-- **A frame is spilled** behind the others. -/
theorem write (h : sp.Holds frames) (hf : f.Sized) {maxBytes : Nat} {sp' : SpilloverInner}
    (hw : writeFrame maxBytes sp f = .ok sp') : sp'.Holds (frames ++ [f]) := by
  unfold writeFrame at hw
  dsimp only at hw
  split at hw
  · cases hw
  cases hw
  refine ⟨h.spooled.append f, ?_, ?_⟩
  · show sp.writeOffset + _ = (sp.file ++ encodeSpilled f).length
    rw [h.written, length_append, length_encodeSpilled]
  · intro g hg
    rcases mem_append.mp hg with hg | hg
    · exact h.sized g hg
    · rw [mem_singleton.mp hg]
      exact hf

/-- **The first frame is read back** as it was written. -/
theorem read_cons (h : sp.Holds (f :: frames)) :
    ∃ sp', readNextFrame sp = .read sp' (.ok f) ∧ sp'.Holds frames := by
  have hmore : ¬ sp.writeOffset ≤ sp.readOffset := by
    rw [h.written, h.spooled.atEnd_iff fun a => cons_ne_nil _ _]
    exact cons_ne_nil _ _
  have hlen : decode (encode 4 f.bytes.length) = f.bytes.length :=
    decode_encode_of_lt (h.sized f mem_cons_self)
  have hrest : sp.file.drop sp.readOffset =
      f.tag :: (encode 4 f.bytes.length ++ (f.bytes ++ frames.flatMap encodeSpilled)) := by
    rw [h.spooled.rest, flatMap_cons, encodeSpilled, cons_append, append_assoc]
  refine ⟨{ sp with readOffset := sp.readOffset + (1 + 4 + f.bytes.length) }, ?_, ?_, h.written,
    fun g hg => h.sized g (mem_cons_of_mem _ hg)⟩
  · rw [readNextFrame, if_neg hmore, hrest]
    dsimp only
    rw [readExact_append (length_encode _ _)]
    dsimp only
    rw [hlen, readExact_append rfl]
    dsimp only
    rw [decodeSpilled_tag]
  · have hnext := h.spooled.next
    rw [length_encodeSpilled] at hnext
    exact hnext

theorem read_nil (h : sp.Holds []) : readNextFrame sp = .nothing := by
  refine if_pos ?_
  rw [h.written, h.spooled.atEnd_iff fun a => cons_ne_nil _ _]

theorem bytes (h : sp.Holds frames) :
    sp.writeOffset - sp.readOffset = (frames.flatMap encodeSpilled).length := by
  rw [h.written, h.spooled.length]

end SpilloverInner.Holds

/-! ## The counter -/

structure Spillover where
  inner : SpilloverInner
  pending : UInt64
  maxBytes : UInt64

/-- `Spillover::open`: the counter starts at zero whatever is in the file. -/
def Spillover.open (file : Bytes) (maxBytes : UInt64) : Spillover := ⟨.open file, 0, maxBytes⟩

namespace Spillover

def writeFrame (sp : Spillover) (f : OutboundFrame) : Except SpilloverError Spillover :=
  (Delivery.writeFrame sp.maxBytes.toNat sp.inner f).map fun inner =>
    { sp with inner, pending := sp.pending + 1 }

def readNextFrame (sp : Spillover) : Except SpilloverError (Option OutboundFrame) × Spillover :=
  match Delivery.readNextFrame sp.inner with
  | .nothing => (.ok none, sp)
  | .failed e => (.error e, sp)
  | .read inner f => (f.map some, { sp with inner, pending := sp.pending - 1 })

def isEmpty (sp : Spillover) : Bool := sp.pending == 0

def pendingCount (sp : Spillover) : UInt64 := sp.pending

def pendingBytes (sp : Spillover) : Nat := sp.inner.writeOffset - sp.inner.readOffset

end Spillover

structure Spooling where
  sp : Spillover
  accepted : List OutboundFrame
  taken : List OutboundFrame

inductive SpoolCall where
  | write (f : OutboundFrame)
  | read

def Spooling.step (s : Spooling) : SpoolCall → Option Spooling
  | .write f =>
    match s.sp.writeFrame f with
    | .ok sp => some { s with sp, accepted := s.accepted ++ [f] }
    | .error _ => some s
  | .read =>
    match s.sp.readNextFrame with
    | (.ok (some f), sp) => some { s with sp, taken := s.taken ++ [f] }
    | (_, sp) => some { s with sp }

def SpoolCall.Sized : SpoolCall → Prop
  | .write f => f.Sized
  | .read => True

/-- What is still to be read, and that the counter and the cap know of it. -/
structure Spooling.Owes (s : Spooling) (unread : List OutboundFrame) : Prop where
  order : s.accepted = s.taken ++ unread
  holds : s.sp.inner.Holds unread
  count : s.sp.pending.toNat = unread.length
  bounded : (unread.flatMap encodeSpilled).length ≤ s.sp.maxBytes.toNat

theorem Spooling.Owes.step {s t : Spooling} {unread : List OutboundFrame} {c : SpoolCall}
    (h : s.Owes unread) (hc : c.Sized) (hstep : s.step c = some t) :
    ∃ unread', t.Owes unread' ∧ t.sp.maxBytes = s.sp.maxBytes := by
  cases c with
  | write f =>
    unfold Spooling.step at hstep
    dsimp only at hstep
    split at hstep
    · rename_i sp hw
      cases hstep
      unfold Spillover.writeFrame at hw
      cases hinner : writeFrame s.sp.maxBytes.toNat s.sp.inner f with
      | error e =>
        rw [hinner] at hw
        cases hw
      | ok inner =>
        rw [hinner] at hw
        cases hw
        have hholds := h.holds.write hc hinner
        have hbytes : ((unread ++ [f]).flatMap encodeSpilled).length ≤ s.sp.maxBytes.toNat := by
          rw [← hholds.bytes]
          unfold writeFrame at hinner
          dsimp only at hinner
          split at hinner
          · cases hinner
          cases hinner
          dsimp only
          omega
        refine ⟨unread ++ [f], ⟨?_, hholds, ?_, hbytes⟩, rfl⟩
        · rw [h.order, append_assoc]
        · -- the counter cannot overflow, since the cap is a machine word
          have hle := hholds.spooled.length_le fun a => cons_ne_nil _ _
          have hcap := s.sp.maxBytes.toNat_lt
          rw [← hholds.written, hholds.bytes, length_append, length_singleton] at hle
          rw [UInt64.toNat_add, h.count, length_append]
          simp
          omega
    · cases hstep
      exact ⟨unread, h, rfl⟩
  | read =>
    unfold Spooling.step at hstep
    cases unread with
    | nil =>
      rw [Spillover.readNextFrame, h.holds.read_nil] at hstep
      cases hstep
      exact ⟨[], h, rfl⟩
    | cons f unread =>
      obtain ⟨inner, hread, hholds⟩ := h.holds.read_cons
      rw [Spillover.readNextFrame, hread] at hstep
      cases hstep
      refine ⟨unread, ⟨?_, hholds, ?_, ?_⟩, rfl⟩
      · simp [h.order]
      · have hcount := h.count
        rw [UInt64.toNat_sub_of_le _ _ (by rw [UInt64.le_iff_toNat_le, hcount]; simp), hcount]
        rfl
      · refine Nat.le_trans ?_ h.bounded
        rw [flatMap_cons, length_append]
        exact Nat.le_add_left _ _

/-- **A bounded queue.** On a file that is empty at first, frames are read in the order they were
accepted in, the counter is the number of those still to be read, a rejected write does nothing,
and the bytes of the unread frames stay within the cap. -/
theorem spillover_fifo (maxBytes : UInt64) (calls : List SpoolCall) (s : Spooling)
    (hrun : Run Spooling.step (fun _ c => c.Sized) ⟨.open [] maxBytes, [], []⟩ calls s) :
    ∃ unread, s.accepted = s.taken ++ unread ∧ s.sp.readNextFrame.1 = .ok unread.head? ∧
      s.sp.pendingCount.toNat = unread.length ∧ (s.sp.isEmpty = true ↔ unread = []) ∧
      s.sp.pendingBytes ≤ maxBytes.toNat ∧
      ∀ f e, s.sp.writeFrame f = .error e → s.step (.write f) = some s := by
  obtain ⟨⟨unread, howes⟩, hmax⟩ := hrun.invariant
    (P := fun t => (∃ unread, t.Owes unread) ∧ t.sp.maxBytes = maxBytes)
    (fun _ _ _ ⟨⟨_, howes⟩, hmax⟩ hc hstep => by
      obtain ⟨unread', howes', hmax'⟩ := howes.step hc hstep
      exact ⟨⟨unread', howes'⟩, hmax'.trans hmax⟩)
    ⟨⟨[], ⟨rfl, .opened, rfl, Nat.zero_le _⟩⟩, rfl⟩
  refine ⟨unread, howes.order, ?_, howes.count, ?_, ?_, ?_⟩
  · cases unread with
    | nil => rw [Spillover.readNextFrame, howes.holds.read_nil]; rfl
    | cons f unread =>
      obtain ⟨inner, hread, -⟩ := howes.holds.read_cons
      rw [Spillover.readNextFrame, hread]
      rfl
  · rw [Spillover.isEmpty, beq_iff_eq, ← UInt64.toNat_inj, howes.count]
    exact length_eq_zero_iff
  · rw [Spillover.pendingBytes, howes.holds.bytes, ← hmax]
    exact howes.bounded
  · intro f e hrejected
    rw [Spooling.step, hrejected]

instance (c : SpoolCall) : Decidable c.Sized :=
  match c with
  | .write f => inferInstanceAs (Decidable f.Sized)
  | .read => .isTrue trivial

/-- There is no room for the third frame until the first has been read. -/
theorem spillover_fifo_seven : ∃ s, Run Spooling.step (fun _ c => c.Sized) ⟨.open [] 16, [], []⟩
      [.write (.binary [7]), .write (.text "ok"), .write (.binary [8]), .read,
        .write (.binary [9])] s ∧
      s.accepted = [.binary [7], .text "ok", .binary [9]] ∧ s.taken = [.binary [7]] ∧ ∃ unread,
      s.accepted = s.taken ++ unread ∧ s.sp.readNextFrame.1 = .ok unread.head? ∧
      s.sp.pendingCount.toNat = unread.length ∧ (s.sp.isEmpty = true ↔ unread = []) ∧
      s.sp.pendingBytes ≤ (16 : UInt64).toNat ∧
      ∀ f e, s.sp.writeFrame f = .error e → s.step (.write f) = some s :=
  Run.exists_of_check (fun s => s.accepted = [.binary [7], .text "ok", .binary [9]] ∧
      s.taken = [.binary [7]]) (by decide +kernel)
    fun s hrun ⟨haccepted, htaken⟩ => ⟨haccepted, htaken, spillover_fifo 16 _ s hrun⟩

/-- The frame an earlier spillover left is read but was not counted, and the counter wraps. -/
theorem backlog_not_counted : ∃ sp, sp = Spillover.open (encodeSpilled (.binary [7])) 8 ∧
    sp.isEmpty = true ∧ sp.readNextFrame.1 = .ok (some (.binary [7])) ∧
    sp.readNextFrame.2.pendingCount.toNat = 2 ^ 64 - 1 :=
  ⟨_, rfl, rfl, rfl, by decide +kernel⟩

end CqServer.Delivery

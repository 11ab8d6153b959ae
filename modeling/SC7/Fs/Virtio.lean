-- SUMMARY: The disk driver (`virt.c`): descriptors, the two rings it shares with the device, `virtio_rw` and the interrupt handler as sections under `vdisk_lock`.
import SC7.Base.RingBuf
import SC7.Base.Run

/-!
# The disk driver

A call of `virtio_rw` takes three descriptors, chains a header, the data of a buffer and a status byte, and puts
the number of the first one into the available ring. The device serves chains in any order and puts their numbers
into the used ring; the interrupt handler tells the buffers.

The sections of the driver exclude each other by `vdisk_lock`. The device works in between, and the handler is
taken one turn of its loop at a time, which are more interleavings than the lock allows.
-/

namespace SC7.Virtio

open Function (update)

def NUM : Nat := 32
def BSIZE : Nat := 4096
def VRING_DESC_F_NEXT : Nat := 1
def VRING_DESC_F_WRITE : Nat := 2
def VIRTIO_BLK_T_IN : Nat := 0
def VIRTIO_BLK_T_OUT : Nat := 1

variable {T B α : Type} [DecidableEq T] [DecidableEq B]

/-- What a descriptor points to. -/
inductive Addr (B : Type) where
  | null
  | ops (i : Nat)
  | data (b : B)
  | status (i : Nat)

structure Desc (B : Type) where
  addr : Addr B
  len : Nat
  flags : Nat
  next : Nat

/-- `struct virtio_blk_req`. -/
structure BlkReq where
  type : Nat
  reserved : Nat
  sector : Nat

/-- `struct buf`, as far as the driver uses it. -/
structure Buf (α : Type) where
  disk : Bool
  blockno : UInt32
  data : α

/-- `b->blockno * (BSIZE / 512)`, in 32 bits. -/
def sector (blockno : UInt32) : Nat := (blockno * UInt32.ofNat (BSIZE / 512)).toNat

/-- The two channels: `&disk.free[0]` and a buffer. -/
inductive Chan (B : Type) where
  | free
  | buf (b : B)
  deriving DecidableEq

/-- Where a thread is in `virtio_rw`, with its local variables: it has found no descriptors, or it waits for the
chain that it has handed over. -/
inductive Place (B : Type) where
  | out
  | refused (b : B) (write : Bool)
  | waits (b : B) (write : Bool) (i j k : Nat)

/-- The buffer that the call is about. -/
def Place.buf : Place B → Option B
  | .out => none
  | .refused b _ | .waits b _ _ _ _ => some b

/-- The descriptors of the call. -/
def Place.descs : Place B → List Nat
  | .waits _ _ i j k => [i, j, k]
  | _ => []

/-- `struct disk`, the buffers, the threads, and the device: how far it has read the available ring (`avail.rd`),
the chains that it works on, and the block that starts at a sector. -/
structure Sys (T B α : Type) where
  desc : Nat → Desc B
  avail : RingBuf Nat
  used : RingBuf Nat
  free : Nat → Bool
  infoB : Nat → Option B
  status : Nat → Nat
  ops : Nat → BlkReq
  buf : B → Buf α
  place : T → Place B
  asleep : T → Option (Chan B)
  taken : List Nat
  medium : Nat → α

namespace Sys

variable (s : Sys T B α)

def wakeup (chan : Chan B) : Sys T B α :=
  { s with asleep := fun t => if s.asleep t = some chan then none else s.asleep t }

/-! ## Descriptors -/

def allocDesc : Option (Nat × Sys T B α) :=
  ((List.range NUM).find? s.free).map fun i => (i, { s with free := update s.free i false })

/-- `none` for a panic. -/
def freeDesc (i : Nat) : Option (Sys T B α) :=
  if NUM ≤ i then none
  else if s.free i then none
  else
    let s := { s with desc := update s.desc i ⟨.null, 0, 0, 0⟩, free := update s.free i true }
    some (s.wakeup .free)

/-- Every turn frees another descriptor, so `NUM` turns are enough. -/
def freeChain : Nat → Nat → Sys T B α → Option (Sys T B α)
  | 0, _, _ => none
  | n + 1, i, s =>
    (s.freeDesc i).bind fun s' =>
      if (s.desc i).flags &&& VRING_DESC_F_NEXT ≠ 0 then freeChain n (s.desc i).next s' else some s'

/-- The loop over `idx`: so many are still to be found. -/
def alloc3Desc : Nat → List Nat → Sys T B α → Option (Option (List Nat) × Sys T B α)
  | 0, idx, s => some (some idx, s)
  | n + 1, idx, s =>
    match s.allocDesc with
    | some (i, s) => alloc3Desc n (idx ++ [i]) s
    | none => (idx.foldlM freeDesc s).map fun s => (none, s)

/-! ## The sections -/

/-- The request is formatted and handed over, and the thread sleeps on its buffer. -/
def submit (t : T) (b : B) (write : Bool) (i j k : Nat) : Sys T B α :=
  { s with
    ops := update s.ops i ⟨if write then VIRTIO_BLK_T_OUT else VIRTIO_BLK_T_IN, 0, sector (s.buf b).blockno⟩
    desc := update (update (update s.desc i ⟨.ops i, 16, VRING_DESC_F_NEXT, j⟩)
      j ⟨.data b, BSIZE, (if write then 0 else VRING_DESC_F_WRITE) ||| VRING_DESC_F_NEXT, k⟩)
      k ⟨.status i, 1, VRING_DESC_F_WRITE, 0⟩
    status := update s.status i 0xff
    buf := update s.buf b { s.buf b with disk := true }
    infoB := update s.infoB i (some b)
    avail := s.avail.push (2 ^ 16) NUM i
    place := update s.place t (.waits b write i j k)
    asleep := update s.asleep t (some (.buf b)) }

/-- One turn of the first loop of `virtio_rw`, and what follows it. -/
def request (t : T) (b : B) (write : Bool) : Option (Sys T B α) :=
  match alloc3Desc 3 [] s with
  | some (some [i, j, k], s) => some (s.submit t b write i j k)
  | some (_, s) => some { s with
      place := update s.place t (.refused b write)
      asleep := update s.asleep t (some .free) }
  | none => none

/-- The second loop of `virtio_rw`, and what follows it. -/
def await (t : T) (b : B) (i : Nat) : Option (Sys T B α) :=
  if (s.buf b).disk then some { s with asleep := update s.asleep t (some (.buf b)) }
  else
    (freeChain NUM i { s with infoB := update s.infoB i none }).map fun s =>
      { s with place := update s.place t .out }

/-- One turn of the loop of `virtio_disk_intr`; `none` for a panic and for a null pointer. -/
def intr : Option (Sys T B α) :=
  let id := s.used.data (s.used.rd % NUM)
  if s.status id ≠ 0 then none
  else
    (s.infoB id).map fun b =>
      let s := { s with buf := update s.buf b { s.buf b with disk := false }, used := s.used.pop (2 ^ 16) }
      s.wakeup (.buf b)

/-! ## The device -/

/-- The device takes the next chain. -/
def take : Sys T B α :=
  { s with avail := s.avail.pop (2 ^ 16), taken := s.avail.data (s.avail.rd % NUM) :: s.taken }

/-- The request that the chain from a descriptor on holds, with its buffer and the place of its status. -/
def chain (i : Nat) : Option (BlkReq × B × Nat) :=
  let d := s.desc i
  let d' := s.desc d.next
  let d'' := s.desc d'.next
  match d.addr, d'.addr, d''.addr with
  | .ops o, .data b, .status r =>
    if d.flags = VRING_DESC_F_NEXT ∧ d'.flags &&& VRING_DESC_F_NEXT ≠ 0 ∧ d'.len = BSIZE ∧ d''.flags = VRING_DESC_F_WRITE ∧
        (d'.flags &&& VRING_DESC_F_WRITE ≠ 0 ↔ (s.ops o).type = VIRTIO_BLK_T_IN) then
      some (s.ops o, b, r)
    else none
  | _, _, _ => none

/-- The device is done with a chain and reports a status; with a status other than 0 it has moved nothing. -/
def serve (i st : Nat) : Option (Sys T B α) :=
  (s.chain i).map fun (req, b, r) =>
    { s with
      medium := if st = 0 ∧ req.type = VIRTIO_BLK_T_OUT then update s.medium req.sector (s.buf b).data else s.medium
      buf := if st = 0 ∧ req.type = VIRTIO_BLK_T_IN then
        update s.buf b { s.buf b with data := s.medium req.sector } else s.buf
      status := update s.status r st
      used := s.used.push (2 ^ 16) NUM i
      taken := s.taken.erase i }

/-! ## Runs -/

/-- Some call is about this buffer. -/
def InCall (b : B) : Prop := ∃ t, (s.place t).buf = some b

/-- The sections of the driver and the steps of the device, in any order. Whoever calls holds the sleep lock of
the buffer, so a buffer is in one call at a time, and it is not changed meanwhile. A thread may be woken for
another reason. -/
inductive Step : Sys T B α → Prop where
  | call (t : T) (b : B) (write : Bool) (s' : Sys T B α) (hout : s.place t = .out) (hbuf : ¬s.InCall b)
      (hrun : s.request t b write = some s') : Step s'
  | retry (t : T) (b : B) (write : Bool) (s' : Sys T B α) (hplace : s.place t = .refused b write)
      (hwoken : s.asleep t = none) (hrun : s.request t b write = some s') : Step s'
  | await (t : T) (b : B) (write : Bool) (i j k : Nat) (s' : Sys T B α) (hplace : s.place t = .waits b write i j k)
      (hwoken : s.asleep t = none) (hrun : s.await t b i = some s') : Step s'
  | wake (t : T) : Step { s with asleep := update s.asleep t none }
  | intr (s' : Sys T B α) (hused : s.used.rd ≠ s.used.wr) (hrun : s.intr = some s') : Step s'
  | take (havail : s.avail.rd ≠ s.avail.wr) : Step s.take
  | serve (i st : Nat) (s' : Sys T B α) (htaken : i ∈ s.taken) (hrun : s.serve i st = some s') : Step s'
  | edit (b : B) (blockno : UInt32) (data : α) (hbuf : ¬s.InCall b) :
      Step { s with buf := update s.buf b { s.buf b with blockno, data } }

/-- After `virtio_disk_init`. -/
structure Boot : Prop where
  free : ∀ i < NUM, s.free i = true
  avail : ∃ d, s.avail = ⟨d, 0, 0⟩
  used : ∃ d, s.used = ⟨d, 0, 0⟩
  taken : s.taken = []
  out : ∀ t, s.place t = .out
  awake : ∀ t, s.asleep t = none

end Sys

end SC7.Virtio

import Barnix.Lib.Overwrite
import Barnix.Stdio.Format
/-!
# Streams

`fopen`, `fwrite`, `fread` and their neighbours of `stdio.c` keep a position for each stream, but the
kernel only replaces a whole file or appends to it. Beside them stands the stream that the C functions
are named after, which writes where its position is.
-/

namespace Barnix.Stdio

/-! ## The kernel's file -/

/-- The longest file, whose size is an `int`. -/
structure Limit where
  bytes : Nat
  isInt : bytes < 2147483648

/-- The one file that the streams are opened on: its bytes, when it exists. -/
@[ext] structure Disk (limit : Limit) where
  file : Option (List UInt8)
  fits : ∀ bytes ∈ file, bytes.length ≤ limit.bytes

variable {limit : Limit}

namespace Disk

def contents (d : Disk limit) : List UInt8 := d.file.getD []

/-- `barnix->size` -/
def size (d : Disk limit) : Int :=
  match d.file with
  | some bytes => bytes.length
  | none => -1

/-- `barnix->read` -/
def read (d : Disk limit) (offset size : Nat) : Int × List UInt8 :=
  match d.file with
  | some bytes => if offset ≤ bytes.length then (((bytes.drop offset).take size).length, (bytes.drop offset).take size) else (-1, [])
  | none => (-1, [])

/-- `barnix->write` -/
def write (d : Disk limit) (data : List UInt8) : Int × Disk limit :=
  if h : data.length ≤ limit.bytes then (0, ⟨some data, fun _ hb => Option.mem_some.1 hb ▸ h⟩) else (-1, d)

/-- `barnix->append` -/
def append (d : Disk limit) (data : List UInt8) : Int × Disk limit := d.write (d.contents ++ data)

end Disk

/-! ## The library -/

/-- `FILE`; `named` says that `name` is not null. -/
structure FILE where
  named : Bool
  position : Nat
  append : Bool
  deriving DecidableEq

inductive Origin where
  | seekSet
  | seekCur
  | seekEnd
  deriving DecidableEq

/-- What a call returns, and the bytes that it moved. -/
inductive Outcome where
  | opened (stream : Option Nat)
  | status (value : Int)
  | wrote (items size moved : Nat)
  | got (items size : Nat) (bytes : List UInt8)
  deriving DecidableEq

/-- The items that are returned were moved. -/
def Outcome.Covered : Outcome → Prop
  | .wrote items size moved => items * size ≤ moved
  | .got items size bytes => items * size ≤ bytes.length
  | _ => True

/-- The kernel's file and `streams`. -/
structure State (limit : Limit) where
  disk : Disk limit
  streams : List FILE

/-- No stream is open. -/
def start (disk : Disk limit) : State limit := ⟨disk, List.replicate 4 ⟨false, 0, false⟩⟩

namespace State

/-- The stream behind a pointer, unless `!stream || !stream->name`. -/
def live (s : State limit) (stream : Option Nat) : Option (Nat × FILE) :=
  stream.bind fun i => s.streams[i]?.bind fun f => if f.named then some (i, f) else none

def put (s : State limit) (i : Nat) (f : FILE) : State limit := { s with streams := s.streams.set i f }

end State

/-- The loop of `fopen` over the streams from the one numbered `i` on. -/
def fopenLoop (mode : UInt8) : List FILE → Nat → Disk limit → Option Nat × List FILE × Disk limit
  | [], _, disk => (none, [], disk)
  | f :: fs, i, disk =>
    if f.named then
      let rest := fopenLoop mode fs (i + 1) disk
      (rest.1, f :: rest.2.1, rest.2.2)
    else
      let cleared := if mode = 119 then disk.write [] else (0, disk)
      if cleared.1 ≠ 0 then
        let rest := fopenLoop mode fs (i + 1) cleared.2
        (rest.1, { f with position := 0, append := mode == 97 } :: rest.2.1, rest.2.2)
      else
        let position := if mode = 97 ∧ 0 ≤ cleared.2.size then cleared.2.size.toNat else 0
        (some i, ⟨true, position, mode == 97⟩ :: fs, cleared.2)

/-- `fopen` with the first letter of its mode. -/
def fopen (mode : UInt8) (s : State limit) : Outcome × State limit :=
  if mode = 0 then (.opened none, s)
  else if mode = 114 ∧ s.disk.size < 0 then (.opened none, s)
  else
    let made := if mode = 97 ∧ s.disk.size < 0 then s.disk.write [] else (0, s.disk)
    if made.1 ≠ 0 then (.opened none, { s with disk := made.2 })
    else
      let r := fopenLoop mode s.streams 0 made.2
      (.opened r.1, ⟨r.2.2, r.2.1⟩)

/-- `fclose` -/
def fclose (stream : Option Nat) (s : State limit) : Outcome × State limit :=
  match s.live stream with
  | none => (.status (-1), s)
  | some (i, f) => (.status 0, s.put i { f with named := false })

/-- `base` in `fseek`; a `long` has 32 bits. -/
def seekBase (s : State limit) (f : FILE) : Origin → Int
  | .seekCur => wrap f.position
  | .seekEnd => s.disk.size
  | .seekSet => 0

/-- `fseek` -/
def fseek (offset : Int32) (origin : Origin) (stream : Option Nat) (s : State limit) : Outcome × State limit :=
  match s.live stream with
  | none => (.status (-1), s)
  | some (i, f) =>
    if offset.toInt < 0 then (.status (-1), s)
    else
      let base := seekBase s f origin
      if wrap (base + offset.toInt) < 0 then (.status (-1), s)
      else (.status 0, s.put i { f with position := (wrap (base + offset.toInt)).toNat })

/-- `ftell` -/
def ftell (stream : Option Nat) (s : State limit) : Outcome × State limit :=
  match s.live stream with
  | none => (.status (-1), s)
  | some (_, f) => (.status (wrap f.position), s)

/-- `barnix_fread`; the product of `size` and `count` wraps. -/
def fread (size count : UInt32) (stream : Option Nat) (s : State limit) : Outcome × State limit :=
  match s.live stream with
  | none => (.got 0 size.toNat [], s)
  | some (i, f) =>
    if size = 0 ∨ count = 0 then (.got 0 size.toNat [], s)
    else
      let r := s.disk.read f.position (size * count).toNat
      if r.1 ≤ 0 then (.got 0 size.toNat [], s)
      else (.got (r.1.toNat / size.toNat) size.toNat r.2, s.put i { f with position := (f.position + r.1.toNat) % 4294967296 })

/-- The first `n` bytes of the caller's memory. -/
def bytesOf (data : Nat → UInt8) (n : Nat) : List UInt8 := (List.range n).map data

@[simp] theorem length_bytesOf (data : Nat → UInt8) (n : Nat) : (bytesOf data n).length = n := by simp [bytesOf]

/-- `barnix_fwrite`; the product of `size` and `count` wraps. -/
def fwrite (data : Nat → UInt8) (size count : UInt32) (stream : Option Nat) (s : State limit) : Outcome × State limit :=
  match s.live stream with
  | none => (.wrote 0 size.toNat 0, s)
  | some (i, f) =>
    if size = 0 ∨ count = 0 then (.wrote 0 size.toNat 0, s)
    else
      let bytes := (size * count).toNat
      let r := if f.append = true ∨ f.position ≠ 0 then s.disk.append (bytesOf data bytes) else s.disk.write (bytesOf data bytes)
      if r.1 ≠ 0 then (.wrote 0 size.toNat 0, { s with disk := r.2 })
      else (.wrote count.toNat size.toNat bytes, State.put { s with disk := r.2 } i { f with position := (f.position + bytes) % 4294967296 })

/-- What `fputc` makes of the outcome of `fwrite`. -/
def putOutcome (value : Int) : Outcome → Outcome
  | .wrote 1 _ _ => .status value
  | _ => .status (-1)

/-- `fputc` on a stream that is not the console; it returns the `int` that it was given. -/
def fputc (character : Int32) (stream : Option Nat) (s : State limit) : Outcome × State limit :=
  let r := fwrite (fun _ => .ofInt character.toInt) 1 1 stream s
  (putOutcome character.toInt r.1, r.2)

inductive Mode where
  | w
  | a
  deriving DecidableEq

def Mode.letter : Mode → UInt8
  | .w => 119
  | .a => 97

inductive Op where
  | fopen (mode : Mode)
  | fwrite (data : Nat → UInt8) (size count : UInt32) (stream : Option Nat)
  | fputc (character : Int32) (stream : Option Nat)
  | fseek (offset : Int32) (origin : Origin) (stream : Option Nat)
  | ftell (stream : Option Nat)
  | fread (size count : UInt32) (stream : Option Nat)
  | fclose (stream : Option Nat)

def State.step (s : State limit) : Op → Outcome × State limit
  | .fopen mode => Stdio.fopen mode.letter s
  | .fwrite data size count stream => Stdio.fwrite data size count stream s
  | .fputc character stream => Stdio.fputc character stream s
  | .fseek offset origin stream => Stdio.fseek offset origin stream s
  | .ftell stream => Stdio.ftell stream s
  | .fread size count stream => Stdio.fread size count stream s
  | .fclose stream => Stdio.fclose stream s

/-! ## The reference -/

/-- An open stream. -/
structure Cursor where
  append : Bool
  position : Nat
  deriving DecidableEq

/-- A file and the streams on it. -/
@[ext] structure Reference where
  file : Option (List UInt8)
  streams : List (Option Cursor)
  deriving DecidableEq

namespace Reference

def fresh (file : Option (List UInt8)) : Reference := ⟨file, List.replicate 4 none⟩

def contents (r : Reference) : List UInt8 := r.file.getD []

def live (r : Reference) (stream : Option Nat) : Option (Nat × Cursor) :=
  stream.bind fun i => r.streams[i]?.join.map fun c => (i, c)

def put (r : Reference) (i : Nat) (c : Option Cursor) : Reference := { r with streams := r.streams.set i c }

/-- Mode `w` empties the file; mode `a` makes it, and stands at its end. -/
def fopen (mode : Mode) (r : Reference) : Outcome × Reference :=
  match r.streams.findIdx? Option.isNone with
  | none => (.opened none, r)
  | some i =>
    let file := match mode with
      | .w => []
      | .a => r.contents
    (.opened (some i), { r with file := some file }.put i (some ⟨mode == Mode.a, file.length⟩))

def fclose (stream : Option Nat) (r : Reference) : Outcome × Reference :=
  match r.live stream with
  | none => (.status (-1), r)
  | some (i, _) => (.status 0, r.put i none)

/-- Where an offset counts from. -/
def base (r : Reference) (c : Cursor) : Origin → Nat
  | .seekSet => 0
  | .seekCur => c.position
  | .seekEnd => r.contents.length

/-- A position is what a `long` can hold. -/
def fseek (offset : Int32) (origin : Origin) (stream : Option Nat) (r : Reference) : Outcome × Reference :=
  match r.live stream with
  | none => (.status (-1), r)
  | some (i, c) =>
    let target := r.base c origin + offset.toInt
    if 0 ≤ target ∧ target < 2147483648 then (.status 0, r.put i (some { c with position := target.toNat }))
    else (.status (-1), r)

def ftell (stream : Option Nat) (r : Reference) : Outcome × Reference :=
  match r.live stream with
  | none => (.status (-1), r)
  | some (_, c) => (.status c.position, r)

/-- The bytes at the position, as many as were asked for or are there. -/
def fread (size count : UInt32) (stream : Option Nat) (r : Reference) : Outcome × Reference :=
  match r.live stream with
  | none => (.got 0 size.toNat [], r)
  | some (i, c) =>
    let bytes := (r.contents.drop c.position).take (size.toNat * count.toNat)
    (.got (bytes.length / size.toNat) size.toNat bytes, r.put i (some { c with position := c.position + bytes.length }))

/-- Where a write goes. -/
def place (r : Reference) (c : Cursor) : Nat := if c.append then r.contents.length else c.position

/-- A write goes to its place, or is refused where the file would get too long. -/
def fwrite (limit : Limit) (data : Nat → UInt8) (size count : UInt32) (stream : Option Nat) (r : Reference) : Outcome × Reference :=
  match r.live stream with
  | none => (.wrote 0 size.toNat 0, r)
  | some (i, c) =>
    let n := size.toNat * count.toNat
    if n = 0 ∨ limit.bytes < r.place c + n then (.wrote 0 size.toNat 0, r)
    else (.wrote count.toNat size.toNat n,
      { r with file := some (overwrite 0 r.contents (r.place c) (bytesOf data n)) }.put i (some { c with position := r.place c + n }))

/-- The character is written, and returned, as an `unsigned char`. -/
def fputc (limit : Limit) (character : Int32) (stream : Option Nat) (r : Reference) : Outcome × Reference :=
  let w := fwrite limit (fun _ => .ofInt character.toInt) 1 1 stream r
  (putOutcome (character.toInt % 256) w.1, w.2)

def step (limit : Limit) (r : Reference) : Op → Outcome × Reference
  | .fopen mode => r.fopen mode
  | .fwrite data size count stream => r.fwrite limit data size count stream
  | .fputc character stream => r.fputc limit character stream
  | .fseek offset origin stream => r.fseek offset origin stream
  | .ftell stream => r.ftell stream
  | .fread size count stream => r.fread size count stream
  | .fclose stream => r.fclose stream

end Reference

end Barnix.Stdio

import Yclib.Amf.Value

namespace Yclib.Amf
open Network

/-- What a reader does that can go wrong: it inspects a byte, it calls through an
entry of the table `sd_read`, and it reports a consumed length for a buffer. -/
inductive Touch
  | byte (off : Nat)
  | entry (type : Nat)
  | report (len size : Nat)

/-- A reader's result together with everything it touched on the way. There is no
result when control went through an entry `sd_read` does not have. -/
structure Rd (α : Type) where
  ret : Option α
  log : List Touch

instance : Monad Rd where
  pure a := ⟨some a, []⟩
  bind x f := match x.ret with
    | none => ⟨none, x.log⟩
    | some a => ⟨(f a).ret, x.log ++ (f a).log⟩

/-- Inspect `n` bytes from `w` on. -/
def touch (w n : Nat) : Rd Unit := ⟨some (), (List.range n).map (fun i => .byte (w + i))⟩

/-- Select an entry of `sd_read`. -/
def entry (type : Nat) : Rd Unit := ⟨some (), [.entry type]⟩

/-- Return `value` (`none` for NULL) and set `*len`; the reader was given `size` bytes. -/
def give (value : Option α) (len size : Nat) : Rd (Option α × Nat) :=
  ⟨some (value, u32 len), [.report (u32 len) size]⟩

section

-- Every reader is given `end - walker` bytes, so all of them share one `end`.
-- The allocations are taken to succeed.
variable (m : Mem) (e : Nat)

def sdUi8Read (w : Nat) : Rd (Option UInt8 × Nat) :=
  if e - w < 1 then give none 0 (e - w)
  else do
    touch w 1
    give (some (m w)) 1 (e - w)

def sdDblRead (w : Nat) : Rd (Option UInt64 × Nat) :=
  if e < w + 8 then give none 0 (e - w)
  else do
    touch w 8
    give (some (rnsBtohd m w)) 8 (e - w)

/-- The string at `w`, of the length its two length bytes give. -/
def strAt (w : Nat) : SdStr :=
  ⟨slice m (w + 2) (rnsBtoh16 m w), by rw [slice_length]; exact btoh_lt m w 2⟩

def sdStrRead (w : Nat) : Rd (Option SdStr × Nat) :=
  if e - w < 2 then give none 0 (e - w)
  else do
    touch w 2
    if e - (w + 2) < rnsBtoh16 m w then give none 0 (e - w)
    else do
      touch (w + 2) (rnsBtoh16 m w)
      give (some (strAt m w)) (2 + rnsBtoh16 m w) (e - w)

/-- The loop condition of `sd_obj_read`: not at the end, and not at an end marker.
`&&` stops at the first byte that differs. -/
def sdObjMore (w : Nat) : Rd Bool :=
  if w < e then do
    touch w 1
    if m w = 0 then do
      touch (w + 1) 1
      if m (w + 1) = 0 then do
        touch (w + 2) 1
        pure (m (w + 2) != 9)
      else pure true
    else pure true
  else pure false

mutual

def sdValueRead : Nat → Nat → Rd (Option SdValue × Nat)
  | 0, _ => ⟨none, []⟩
  | fuel + 1, w =>
    if e - w < 1 then give none 0 (e - w)
    else do
      touch w 1
      if sdTypeEnd ≤ (m w).toNat then give none (e - w) (e - w)
      else do
        let (value, bytes) ← sdRead fuel (m w).toNat (w + 1)
        give (some value) (1 + bytes) (e - w)
termination_by structural fuel => fuel

/-- The table `sd_read`: nine readers, whose results `sd_value_read` stores without
looking at them. `sd_null_read` leaves `bytes` at zero. -/
def sdRead : Nat → Nat → Nat → Rd (SdValue × Nat)
  | 0, _, _ => ⟨none, []⟩
  | fuel + 1, type, w => do
    entry type
    match type with
    | 0 => do
      let (value, bytes) ← sdDblRead m e w
      pure (value.elim (.null 0) .dbl, bytes)
    | 1 => do
      let (value, bytes) ← sdUi8Read m e w
      pure (value.elim (.null 1) .ui8, bytes)
    | 2 => do
      let (value, bytes) ← sdStrRead m e w
      pure (value.elim (.null 2) .str, bytes)
    | 3 => do
      let (value, bytes) ← sdObjRead fuel w w
      pure (value.elim (.null 3) .obj, bytes)
    | 4 => pure (.null 4, 0)
    | 5 => pure (.null 5, 0)
    | 6 => pure (.null 6, 0)
    | 7 => pure (.null 7, 0)
    | 8 => do
      let (value, bytes) ← sdEcmaRead fuel w
      pure (value.elim (.null 8) (fun p => .ecma p.1 p.2), bytes)
    | _ => ⟨none, []⟩
termination_by structural fuel => fuel

def sdEcmaRead : Nat → Nat → Rd (Option (UInt32 × SdObj) × Nat)
  | 0, _ => ⟨none, []⟩
  | fuel + 1, w =>
    if e - w < 4 then give none 0 (e - w)
    else do
      touch w 4
      let (obj, bytes) ← sdObjRead fuel (w + 4) (w + 4)
      match obj with
      | none => give none (if bytes ≠ 0 then e - w else 0) (e - w)
      | some o => give (some (UInt32.ofNat (rnsBtoh32 m w), o)) (4 + bytes) (e - w)
termination_by structural fuel => fuel

/-- `sd_obj_read` of the object at `buf`, with its loop at `w`. -/
def sdObjRead : Nat → Nat → Nat → Rd (Option SdObj × Nat)
  | 0, _, _ => ⟨none, []⟩
  | fuel + 1, buf, w => do
    if ← sdObjMore m e w then
      let (objppt, bytes) ← sdObjpptRead fuel w
      match objppt with
      | none => give none (if bytes ≠ 0 then e - buf else 0) (e - buf)
      | some (name, value) => do
        let (rest, len) ← sdObjRead fuel buf (w + bytes)
        pure (rest.map (.add name value), len)
    else give (some .nil) (w + 3 - buf) (e - buf)
termination_by structural fuel => fuel

def sdObjpptRead : Nat → Nat → Rd (Option (SdStr × SdValue) × Nat)
  | 0, _ => ⟨none, []⟩
  | fuel + 1, w => do
    let (name, bytes) ← sdStrRead m e w
    match name with
    | none => give none (if bytes ≠ 0 then e - w else 0) (e - w)
    | some name => do
      let (value, more) ← sdValueRead fuel (w + bytes)
      match value with
      | none => give none (if more ≠ 0 then e - w else 0) (e - w)
      | some value => give (some (name, value)) (bytes + more) (e - w)
termination_by structural fuel => fuel

end

end

/-- Enough fuel for any buffer of `size` bytes: a level of nesting costs at most
four calls and at least one byte. -/
def readFuel (size : Nat) : Nat := 4 * size + 4

/-- `sd_value_read(buf, size, len)`. -/
def readValue (m : Mem) (size : Nat) : Rd (Option SdValue × Nat) :=
  sdValueRead m size (readFuel size) 0

end Yclib.Amf

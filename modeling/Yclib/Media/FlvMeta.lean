import Yclib.Amf.RoundTrip
import Yclib.Util.CString

namespace Yclib.Media.Flv
open Network Amf

/-! The metadata of an FLV file, which `flv_write_metadata` lays out by hand and the reader of the
RTMP module decodes. -/

/-- `flv_meta_t`, of which the writer takes the duration. -/
structure Meta where
  duration : UInt64

/-- `flv_write_metadata`, as the bytes that it puts; their number is what it returns. -/
def flvWriteMetadata (mta : Meta) : List UInt8 :=
  [0x02] ++ rnsHtob16 10 ++ ascii "onMetaData" ++
    [0x08] ++ rnsHtob32 1 ++
    rnsHtob16 8 ++ ascii "duration" ++ [0x00] ++ rnsHtobd mta.duration ++
    [0x00, 0x00, 0x09]

def onMetaData : SdStr := ⟨ascii "onMetaData", by decide⟩

/-- An ECMA array of one property. -/
def durationArray (mta : Meta) : SdObj := .add ⟨ascii "duration", by decide⟩ (.dbl mta.duration) .nil

/-- The values that the bytes stand for, each whole. -/
theorem metadata_bytes (mta : Meta) :
    flvWriteMetadata mta = (SdValue.str onMetaData).bytes ++ (SdValue.ecma 1 (durationArray mta)).bytes := by
  simp only [flvWriteMetadata, SdValue.bytes, SdObj.bytes, durationArray, List.cons_append, List.nil_append,
    List.append_assoc]
  rfl

theorem metadata_length (mta : Meta) : (flvWriteMetadata mta).length = 13 + 27 := by
  rw [metadata_bytes, List.length_append, value_bytes_length, value_bytes_length]
  rfl

/-- A value at the front of the memory is read whole, whatever is behind it. -/
theorem front_read {m : Mem} {v : SdValue} {size : Nat} (hv : v.Whole) (h : Holds m 0 v.bytes)
    (hs : v.size ≤ size) (hlt : size < 2 ^ 32) : (readValue m size).ret = some (some v, v.size) := by
  have hread := value_read v 0 (readFuel size) hv h (by omega) hlt (by simp [readFuel])
  exact hread.1

/-- The reader decodes the bytes as a string and the array behind it, and then all are consumed. -/
theorem metadata_read (mta : Meta) (m : Mem) (h : Holds m 0 (flvWriteMetadata mta)) :
    ∃ first second,
      (readValue m (flvWriteMetadata mta).length).ret = some (some (.str onMetaData), first) ∧
      (readValue (fun i => m (first + i)) ((flvWriteMetadata mta).length - first)).ret =
        some (some (.ecma 1 (durationArray mta)), second) ∧
      first + second = (flvWriteMetadata mta).length := by
  have hlength := metadata_length mta
  rw [metadata_bytes] at h
  obtain ⟨hstr, harray⟩ := holds_append.mp h
  rw [value_bytes_length] at harray
  have hrest : Holds (fun i => m ((SdValue.str onMetaData).size + i)) 0
      (SdValue.ecma 1 (durationArray mta)).bytes := by
    intro i hi
    rw [Nat.zero_add]
    simpa using harray i hi
  have hfirst : (SdValue.str onMetaData).size = 13 := rfl
  have hsecond : (SdValue.ecma 1 (durationArray mta)).size = 27 := rfl
  rw [hlength]
  apply Exists.intro (SdValue.str onMetaData).size
  apply Exists.intro (SdValue.ecma 1 (durationArray mta)).size
  constructor
  · exact front_read trivial hstr (by omega) (by omega)
  constructor
  · exact front_read ⟨trivial, trivial⟩ hrest (by omega) (by omega)
  · omega

/-- The metadata of an FLV that lasts a second. -/
theorem second_read : ∃ first second,
    (readValue (fun i => (flvWriteMetadata ⟨0x3FF0000000000000⟩).getD i 0)
      (flvWriteMetadata ⟨0x3FF0000000000000⟩).length).ret = some (some (.str onMetaData), first) ∧
    (readValue (fun i => (flvWriteMetadata ⟨0x3FF0000000000000⟩).getD (first + i) 0)
      ((flvWriteMetadata ⟨0x3FF0000000000000⟩).length - first)).ret =
        some (some (.ecma 1 (durationArray ⟨0x3FF0000000000000⟩)), second) ∧
    first + second = (flvWriteMetadata ⟨0x3FF0000000000000⟩).length := by
  apply metadata_read ⟨0x3FF0000000000000⟩ (fun i => (flvWriteMetadata ⟨0x3FF0000000000000⟩).getD i 0)
  intro i hi
  rw [Nat.zero_add]
  exact List.getD_eq_getElem _ _ hi

end Yclib.Media.Flv

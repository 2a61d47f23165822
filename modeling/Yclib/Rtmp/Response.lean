import Yclib.Amf.Room
import Yclib.Util.CString

namespace Yclib.Rtmp
open Network Amf

/-! The responses that concatenate AMF0 values in a block of fixed size. -/

/-- `sd_str_create(str, size)` with all of `str`: the length is kept in a `uint16_t`. -/
def sdStrCreate (str : List UInt8) : SdStr :=
  ⟨str.take (str.length % 2 ^ 16), by rw [List.length_take]; omega⟩

/-- Three values and the tag of a null before the last, as `rtmp_resp_onstatus`
writes them into its block of 1024 bytes. The result's length is the final `walker`. -/
def rtmpRespOnstatus (tid : UInt64) (ovalue : SdValue) : Option Wr := do
  let c ← sdValueWrite (.str (sdStrCreate (ascii "onStatus"))) 0
  let t ← sdValueWrite (.dbl tid) c.ret
  let o ← sdValueWrite ovalue (c.ret + t.ret + 1)
  some ⟨c.stores ++ t.stores ++ [(c.ret + t.ret, 5)] ++ o.stores, c.ret + t.ret + 1 + o.ret⟩

def property (name : String) (value : List UInt8) (rest : SdObj) : SdObj :=
  .add (sdStrCreate (ascii name)) (.str (sdStrCreate value)) rest

/-- The properties every `onStatus` begins with. -/
def statusObj (code : String) (description : List UInt8) (rest : SdObj) : SdObj :=
  property "level" (ascii "status")
    (property "code" (ascii code) (property "description" description rest))

def rtmpRespPublish (tid : UInt64) (name : SdStr) : Option Wr :=
  rtmpRespOnstatus tid (.obj (statusObj "NetStream.Publish.Start"
    (cString name.str ++ ascii " is now published.")
    (property "clientid" (ascii "clientid") .nil)))

def rtmpRespReset (name : SdStr) : Option Wr :=
  rtmpRespOnstatus 0 (.obj (statusObj "NetStream.Play.Reset"
    (ascii "Playing and resetting " ++ cString name.str ++ ascii ".")
    (property "details" (ascii "test") (property "clientid" (ascii "clientid") .nil))))

def rtmpRespPlay (name : SdStr) : Option Wr :=
  rtmpRespOnstatus 0 (.obj (statusObj "NetStream.Play.Start"
    (ascii "Started playing " ++ cString name.str ++ ascii ".")
    (property "details" (ascii "test") (property "clientid" (ascii "clientid") .nil))))

/-- The metadata of a stream as `rtmp_datamsg_send` writes it into its block of 2048
bytes, behind two strings and the tag of an array. -/
def rtmpDatamsgSend (size : UInt32) (obj : SdObj) : Option Wr := do
  let r ← sdValueWrite (.str (sdStrCreate (ascii "@setDataFrame"))) 0
  let s ← sdValueWrite (.str (sdStrCreate (ascii "onMetaData"))) r.ret
  let e ← sdEcmaWrite size obj (r.ret + s.ret + 1)
  some ⟨r.stores ++ s.stores ++ [(r.ret + s.ret, 8)] ++ e.stores,
    if e.ret ≤ 0 then r.ret + s.ret + 1 else r.ret + s.ret + 1 + e.ret⟩

/-- Control came through the writers, and they stayed inside a block of `size` bytes. -/
def Fits (size : Nat) (written : Option Wr) : Prop := ∃ wr, written = some wr ∧ wr.Inside size

theorem put_inside {size : Nat} {bs : List UInt8} {ret : Int} (hret : ret = bs.length) :
    Wr.Inside size ⟨put 0 bs, ret⟩ ↔ bs.length ≤ size := by
  constructor
  · rintro ⟨_, h⟩
    simp only at h
    omega
  · intro h
    refine ⟨fun s hs => ?_, by simp only; omega⟩
    have := put_mem hs
    omega

theorem str_create_length (bs : List UInt8) : (sdStrCreate bs).str.length = bs.length % 2 ^ 16 := by
  simp only [sdStrCreate, List.length_take]
  omega

theorem str_create_size (bs : List UInt8) : (sdStrCreate bs).size = bs.length % 2 ^ 16 + 2 := by
  rw [SdStr.size, str_create_length]

/-- An `onStatus` is one encoding after another. -/
theorem onstatus_write {tid : UInt64} {o : SdObj} (ho : o.Whole) (hs : o.size < 2 ^ 31 - 22) :
    ∃ bs, rtmpRespOnstatus tid (.obj o) = some ⟨put 0 bs, bs.length⟩ ∧ bs.length = 22 + o.size := by
  have hc := value_write (.str (sdStrCreate (ascii "onStatus"))) 0 trivial (by decide)
  have ht := value_write (.dbl tid) 11 trivial (by simp only [SdValue.size]; norm_num)
  have hov := value_write (.obj o) 21 ho (by simp only [SdValue.size]; omega)
  have hclen := value_bytes_length (.str (sdStrCreate (ascii "onStatus")))
  have htlen := value_bytes_length (.dbl tid)
  have holen := value_bytes_length (.obj o)
  rw [show (SdValue.str (sdStrCreate (ascii "onStatus"))).size = 11 by decide] at hc hclen
  rw [show (SdValue.dbl tid).size = 9 from rfl] at ht htlen
  rw [show (SdValue.obj o).size = 1 + o.size from rfl] at hov holen
  refine ⟨(SdValue.str (sdStrCreate (ascii "onStatus"))).bytes ++ (SdValue.dbl tid).bytes ++ [5] ++
    (SdValue.obj o).bytes, ?_, ?_⟩
  · simp only [rtmpRespOnstatus, hc, Nat.cast_ofNat, ht, Option.bind_eq_bind, Option.bind_some,
      show (11 + 9 + 1 : Int) = 21 by norm_num, hov]
    simp only [put_append, List.length_append, hclen, htlen, holen, List.length_singleton]
    rfl
  · simp only [List.length_append, hclen, htlen, holen, List.length_singleton]
    omega

theorem onstatus_fits {tid : UInt64} {o : SdObj} (ho : o.Whole) (hs : o.size < 2 ^ 31 - 22) :
    Fits 1024 (rtmpRespOnstatus tid (.obj o)) ↔ 22 + o.size ≤ 1024 := by
  obtain ⟨bs, hwrite, hlen⟩ := onstatus_write ho hs
  rw [hwrite, ← hlen, ← put_inside rfl]
  constructor
  · rintro ⟨_, h, hinside⟩
    rwa [Option.some.inj h]
  · exact fun h => ⟨_, rfl, h⟩

theorem property_size (name : String) (value : List UInt8) (rest : SdObj) :
    (property name value rest).size =
      (ascii name).length % 2 ^ 16 + value.length % 2 ^ 16 + 5 + rest.size := by
  simp only [property, SdObj.size, SdValue.size, str_create_size]
  omega

theorem property_whole {name : String} {value : List UInt8} {rest : SdObj} :
    (property name value rest).Whole ↔ rest.Whole := by
  simp [property, SdObj.Whole, SdValue.Whole]

/-- Each response fits while the description, of which `uint16_t` keeps the length
modulo 65536, leaves room for the rest. -/
theorem status_fits {tid : UInt64} {code : String} {description : List UInt8} {rest : SdObj}
    (hr : rest.Whole) (hcode : (ascii code).length < 2 ^ 16) (hs : rest.size < 2 ^ 16) :
    Fits 1024 (rtmpRespOnstatus tid (.obj (statusObj code description rest))) ↔
      (ascii code).length + description.length % 2 ^ 16 + rest.size ≤ 961 := by
  have hlevel : (ascii "level").length = 5 ∧ (ascii "status").length = 6 ∧
      (ascii "code").length = 4 ∧ (ascii "description").length = 11 := by decide
  obtain ⟨h1, h2, h3, h4⟩ := hlevel
  have hsize : (statusObj code description rest).size =
      41 + (ascii code).length + description.length % 2 ^ 16 + rest.size := by
    simp only [statusObj, property_size, h1, h2, h3, h4]
    omega
  rw [onstatus_fits (by simpa only [statusObj, property_whole] using hr) (by omega), hsize]
  omega

theorem publish_fits (tid : UInt64) (name : SdStr) :
    Fits 1024 (rtmpRespPublish tid name) ↔ ((cString name.str).length + 18) % 2 ^ 16 ≤ 914 := by
  have hcode : (ascii "NetStream.Publish.Start").length = 23 := by decide
  have hrest : (property "clientid" (ascii "clientid") .nil).size = 24 := by
    rw [property_size]
    decide
  have hsuffix : (ascii " is now published.").length = 18 := by decide
  have hwhole : (property "clientid" (ascii "clientid") .nil).Whole := by
    rw [property_whole, SdObj.Whole]
    trivial
  rw [rtmpRespPublish, status_fits hwhole (by omega) (by omega), hcode, hrest,
    List.length_append, hsuffix]
  omega

theorem details_whole : (property "details" (ascii "test")
    (property "clientid" (ascii "clientid") .nil)).Whole := by
  rw [property_whole, property_whole, SdObj.Whole]
  trivial

theorem details_size : (property "details" (ascii "test")
    (property "clientid" (ascii "clientid") .nil)).size = 40 := by
  rw [property_size, property_size]
  decide

theorem reset_fits (name : SdStr) :
    Fits 1024 (rtmpRespReset name) ↔ ((cString name.str).length + 23) % 2 ^ 16 ≤ 901 := by
  have hcode : (ascii "NetStream.Play.Reset").length = 20 := by decide
  have hfront : (ascii "Playing and resetting ").length = 22 := by decide
  have hsuffix : (ascii ".").length = 1 := by decide
  rw [rtmpRespReset, status_fits details_whole (by omega) (by rw [details_size]; omega), hcode,
    details_size, List.length_append, List.length_append, hfront, hsuffix]
  omega

theorem play_fits (name : SdStr) :
    Fits 1024 (rtmpRespPlay name) ↔ ((cString name.str).length + 17) % 2 ^ 16 ≤ 901 := by
  have hcode : (ascii "NetStream.Play.Start").length = 20 := by decide
  have hfront : (ascii "Started playing ").length = 16 := by decide
  have hsuffix : (ascii ".").length = 1 := by decide
  rw [rtmpRespPlay, status_fits details_whole (by omega) (by rw [details_size]; omega), hcode,
    details_size, List.length_append, List.length_append, hfront, hsuffix]
  omega

/-- The data message fits while the metadata leaves room for two strings and a tag. -/
theorem datamsg_fits (size : UInt32) (o : SdObj) :
    Fits 2048 (rtmpDatamsgSend size o) ↔ o.Whole ∧ 34 + o.size ≤ 2048 := by
  have hr := value_write (.str (sdStrCreate (ascii "@setDataFrame"))) 0 trivial (by decide)
  have hs := value_write (.str (sdStrCreate (ascii "onMetaData"))) 16 trivial (by decide)
  rw [show (SdValue.str (sdStrCreate (ascii "@setDataFrame"))).size = 16 by decide] at hr
  rw [show (SdValue.str (sdStrCreate (ascii "onMetaData"))).size = 13 by decide] at hs
  have hsend : rtmpDatamsgSend size o = (sdEcmaWrite size o 30).map fun e =>
      ⟨put 0 (SdValue.str (sdStrCreate (ascii "@setDataFrame"))).bytes ++
        put 16 (SdValue.str (sdStrCreate (ascii "onMetaData"))).bytes ++ [(29, 8)] ++ e.stores,
        if e.ret ≤ 0 then 30 else 30 + e.ret⟩ := by
    simp only [rtmpDatamsgSend, hr, Nat.cast_ofNat, hs, Option.bind_eq_bind, Option.bind_some,
      show (16 + 13 : Int) = 29 by norm_num, show (29 + 1 : Int) = 30 by norm_num]
    cases sdEcmaWrite size o 30 <;> rfl
  constructor
  · rintro ⟨wr, hwr, hstores, _⟩
    rw [hsend] at hwr
    obtain ⟨e, he, rfl⟩ := Option.map_eq_some_iff.mp hwr
    obtain ⟨r, hobj, rfl⟩ := Option.map_eq_some_iff.mp he
    refine ⟨(obj_write_isSome _ o _).mp (by rw [hobj]; rfl), ?_⟩
    by_contra hbig
    obtain ⟨s, hmem, hoff⟩ := obj_covers _ o _ r hobj (2048 : Nat) (by omega) (by omega)
    have := (hstores s (List.mem_append_right _ (List.mem_append_right _ hmem))).2
    omega
  · rintro ⟨ho, hfit⟩
    refine ⟨_, by rw [hsend, ecma_write ho (by omega)]; rfl, ?_, ?_⟩
    · intro s hmem
      simp only [List.mem_append, List.mem_singleton] at hmem
      rcases hmem with ((hmem | hmem) | rfl) | hmem
      · have := put_mem hmem
        rw [value_bytes_length,
          show (SdValue.str (sdStrCreate (ascii "@setDataFrame"))).size = 16 by decide] at this
        omega
      · have := put_mem hmem
        rw [value_bytes_length,
          show (SdValue.str (sdStrCreate (ascii "onMetaData"))).size = 13 by decide] at this
        omega
      · exact ⟨by norm_num, by norm_num⟩
      · have := put_mem hmem
        simp only [List.length_append, rnsHtob32, htob_length, obj_bytes_length] at this
        omega
    · simp only
      split <;> omega

/-- Every writer stays inside its block exactly while the encoding fits and no
payload is missing; for the responses this bounds the length of the stream's name. -/
theorem writers_inside_iff (v : SdValue) (size : UInt32) (name : SdStr) (tid : UInt64) (o : SdObj) :
    (size.toNat < 2 ^ 31 ∨ v.size < 2 ^ 31 →
      (Fits size.toNat (sdValueWrite v 0) ↔ v.Whole ∧ v.size ≤ size.toNat)) ∧
    (Fits 1024 (rtmpRespPublish tid name) ↔ ((cString name.str).length + 18) % 2 ^ 16 ≤ 914) ∧
    (Fits 1024 (rtmpRespReset name) ↔ ((cString name.str).length + 23) % 2 ^ 16 ≤ 901) ∧
    (Fits 1024 (rtmpRespPlay name) ↔ ((cString name.str).length + 17) % 2 ^ 16 ≤ 901) ∧
    (Fits 2048 (rtmpDatamsgSend size o) ↔ o.Whole ∧ 34 + o.size ≤ 2048) :=
  ⟨fun h => value_room v size.toNat h, publish_fits tid name, reset_fits name, play_fits name,
    datamsg_fits size o⟩

theorem name_of_length {n : Nat} (h : n < 2 ^ 16) : ∃ name : SdStr, (cString name.str).length = n := by
  refine ⟨⟨List.replicate n 97, by rwa [List.length_replicate]⟩, ?_⟩
  rw [cString, List.takeWhile_replicate]
  simp

/-- A name of 900 bytes: the answer to `publish` runs over its block. -/
theorem long_name_overruns :
    ¬ ((∀ (v : SdValue) (size : UInt32), Fits size.toNat (sdValueWrite v 0)) ∧
      (∀ (name : SdStr) (tid : UInt64), Fits 1024 (rtmpRespPublish tid name) ∧
        Fits 1024 (rtmpRespReset name) ∧ Fits 1024 (rtmpRespPlay name)) ∧
      ∀ (size : UInt32) (o : SdObj), Fits 2048 (rtmpDatamsgSend size o)) := by
  rintro ⟨_, hnames, _⟩
  obtain ⟨name, hname⟩ := name_of_length (n := 900) (by norm_num)
  have hfit := (hnames name 0).1
  rw [publish_fits, hname] at hfit
  omega

end Yclib.Rtmp

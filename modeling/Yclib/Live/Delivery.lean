import Yclib.Live.Fragments

namespace Yclib.Live

/-! A body that is received in several deliveries. -/

/-- A piece of a body, and the memory behind it, which the last packet may be read from. -/
structure Delivery where
  bytes : List UInt8
  behind : Mem

namespace Delivery

def size (delivery : Delivery) : Nat := delivery.bytes.length

def body (delivery : Delivery) : Mem := fun i => delivery.bytes.getD i (delivery.behind i)

/-- The rounds of `yms_channel_recv_ts`. -/
def rounds (delivery : Delivery) : Nat := (delivery.size + 187) / 188

end Delivery

/-- The body that deliveries are of. -/
def bodyOf (deliveries : List Delivery) : List UInt8 := deliveries.flatMap Delivery.bytes

/-- One call of `yms_channel_recv_ts` for each delivery. -/
def recvDeliveries : (Nat → Outcome) → Channel → List Delivery → Option Channel
  | _, channel, [] => some channel
  | outcomes, channel, delivery :: deliveries =>
    (ymsChannelRecvTs outcomes channel delivery.body delivery.size).bind fun channel =>
      recvDeliveries (fun n => outcomes (delivery.rounds + n)) channel deliveries

/-- The packets of a stream. -/
def streamPackets (outcomes : Nat → Outcome) (stream : List UInt8) : List (Outcome × List UInt8) :=
  (List.range (stream.length / 188)).map fun i => (outcomes i, (stream.drop (188 * i)).take 188)

/-- However a body is delivered in pieces of the one and in pieces of the other sizes, the same gops
have the same packets of it, as long as there is memory for gops. -/
def Alike (sizes sizes' : List Nat) : Prop :=
  ∀ gopsize channel outcomes deliveries deliveries', Leads (Channel.create gopsize) channel →
    (∀ n, (outcomes n).gop = true) → deliveries.map Delivery.size = sizes →
    deliveries'.map Delivery.size = sizes' → bodyOf deliveries = bodyOf deliveries' →
    (recvDeliveries outcomes channel deliveries).map Channel.gops =
      (recvDeliveries outcomes channel deliveries').map Channel.gops

section
variable {outcomes : Nat → Outcome} {channel : Channel}

/-- With memory for gops, the loop goes on after each packet. -/
theorem recv_more {outcome : Outcome} {walker : List UInt8} {result : Channel × Bool}
    (hgop : outcome.gop = true) (h : recvPacket outcome channel walker = some result) : result.2 = true := by
  rw [recvPacket] at h
  split at h
  · dsimp only at h
    split at h
    · obtain ⟨pid, -, rfl⟩ := Option.map_eq_some_iff.mp h
      rfl
    · cases h
      rfl
  · split at h
    · split at h
      · cases h
        rfl
      · cases h
    · split at h
      · cases h
        rfl
      · cases h
        rfl

theorem recv_append {packets packets' : List (Outcome × List UInt8)}
    (hgop : ∀ packet ∈ packets, packet.1.gop = true) :
    recvPackets channel (packets ++ packets') =
      (recvPackets channel packets).bind fun channel => recvPackets channel packets' := by
  induction packets generalizing channel with
  | nil => rfl
  | cons packet packets ih =>
    rw [List.cons_append, recvPackets, recvPackets]
    cases hrecv : recvPacket packet.1 channel packet.2 with
    | none => rfl
    | some result =>
      have hmore := recv_more (hgop packet (by simp)) hrecv
      rw [Option.bind_some, Option.bind_some, if_pos hmore, if_pos hmore]
      exact ih fun packet hm => hgop packet (List.mem_cons_of_mem _ hm)

/-- Whole packets in front of a stream are its first ones. -/
theorem packets_append {xs ys : List UInt8} (h : 188 ∣ xs.length) :
    streamPackets outcomes (xs ++ ys) =
      streamPackets outcomes xs ++ streamPackets (fun n => outcomes (xs.length / 188 + n)) ys := by
  obtain ⟨m, hm⟩ := h
  have hdiv : (xs ++ ys).length / 188 = m + ys.length / 188 := by
    rw [List.length_append, hm]
    omega
  have hxs : xs.length / 188 = m := by omega
  rw [streamPackets, streamPackets, streamPackets, hdiv, hxs, List.range_add, List.map_append, List.map_map]
  congr 1
  · refine List.map_congr_left fun i hi => ?_
    have hlt := List.mem_range.mp hi
    rw [List.drop_append_of_le_length (by omega), List.take_append_of_le_length (by rw [List.length_drop]; omega)]
  · refine List.map_congr_left fun i _ => ?_
    have hdrop : (xs ++ ys).drop (188 * (m + i)) = ys.drop (188 * i) := by
      rw [Nat.mul_add, ← hm, List.drop_append]
      simp
    simp only [Function.comp, hdrop]

/-- A delivery of whole packets is received as the packets that it is of. -/
theorem delivery_packets {delivery : Delivery} (h : 188 ∣ delivery.size) :
    ymsChannelRecvTs outcomes channel delivery.body delivery.size =
      recvPackets channel (streamPackets outcomes delivery.bytes) := by
  obtain ⟨m, hm⟩ := h
  have hrounds : (delivery.size + 187) / 188 = m := by omega
  have hdiv : delivery.bytes.length / 188 = m := by
    rw [Delivery.size] at hm
    omega
  rw [ymsChannelRecvTs, streamPackets, hrounds, hdiv]
  refine congrArg _ (List.map_congr_left fun i hi => ?_)
  have hlt := List.mem_range.mp hi
  rw [Delivery.size] at hm
  refine Prod.ext rfl (List.ext_getElem ?_ ?_)
  · rw [slice_length, List.length_take, List.length_drop]
    omega
  · intro k hk _
    rw [slice_length] at hk
    simp only [slice, List.getElem_map, List.getElem_range, Delivery.body, List.getElem_take, List.getElem_drop]
    rw [List.getD_eq_getElem _ _ (by omega)]

theorem deliveries_packets {deliveries : List Delivery} (hgop : ∀ n, (outcomes n).gop = true)
    (h : ∀ delivery ∈ deliveries, 188 ∣ delivery.size) :
    recvDeliveries outcomes channel deliveries =
      recvPackets channel (streamPackets outcomes (bodyOf deliveries)) := by
  induction deliveries generalizing outcomes channel with
  | nil => rfl
  | cons delivery deliveries ih =>
    have hsize := h delivery (by simp)
    have hrounds : delivery.rounds = delivery.bytes.length / 188 := by
      obtain ⟨m, hm⟩ := hsize
      rw [Delivery.rounds, ← Delivery.size]
      omega
    rw [recvDeliveries, delivery_packets hsize, bodyOf, List.flatMap_cons, packets_append hsize, recv_append]
    · refine congrArg _ (funext fun channel => ?_)
      rw [hrounds]
      exact ih (fun _ => hgop _) fun delivery hm => h delivery (List.mem_cons_of_mem _ hm)
    · intro packet hm
      obtain ⟨i, -, rfl⟩ := List.mem_map.mp hm
      exact hgop i

theorem aligned_alike {sizes sizes' : List Nat} (h : ∀ size ∈ sizes, 188 ∣ size)
    (h' : ∀ size ∈ sizes', 188 ∣ size) : Alike sizes sizes' := by
  intro gopsize channel outcomes deliveries deliveries' _ hgop hsizes hsizes' hbody
  subst hsizes hsizes'
  rw [deliveries_packets hgop fun delivery hm => h _ (List.mem_map_of_mem hm),
    deliveries_packets hgop fun delivery hm => h' _ (List.mem_map_of_mem hm), hbody]

end

/-! A delivery that ends inside a packet: the rest of it is read from behind the body. -/

section
variable {channel : Channel} {gop : Gop}

/-- A packet that is media whatever the tables say. -/
def Plain (walker : List UInt8) : Prop := byteAt walker 0 ≠ 0x47 ∧ byteAt walker 1 &&& 0x40 = 0

theorem recv_plain {walker : List UInt8} (h : Plain walker) :
    recvPacket .ample channel walker = some (channel.write (.media ample walker), true) := by
  have hpat : isPat walker = false := by simp [isPat, h.1]
  have hpid : isPid walker channel.pmtPid = false := by simp [isPid, h.1]
  have hidr : isIdr walker = false := by simp [isIdr, h.2]
  rw [recvPacket, hpat, hpid, hidr, if_neg Bool.false_ne_true, if_neg Bool.false_ne_true,
    if_neg Bool.false_ne_true]
  rfl

/-- The one gop of a channel, with what has been written to it. -/
structure Holds (channel : Channel) (bytes : List UInt8) : Prop where
  gop : ∃ gop, channel.gops = [gop] ∧ gop.written = bytes
  capacity : 0 < channel.capacity

theorem media_holds {bytes buf : List UInt8} (h : Holds channel bytes) :
    Holds (channel.write (.media ample buf)) (bytes ++ buf) := by
  obtain ⟨gop, hgops, hwritten⟩ := h.gop
  obtain ⟨hlen, hcap⟩ := @write_ample channel gop buf h.capacity
  obtain ⟨n, hn, hbytes⟩ := @loop_bytes ample channel gop buf buf.length
  rw [gopWrite, hbytes] at hlen
  have hall : n = buf.length := Nat.add_left_cancel hlen
  rw [Channel.write, hgops, List.getLast?_singleton]
  refine ⟨⟨_, rfl, ?_⟩, Nat.lt_of_lt_of_eq h.capacity hcap.symm⟩
  rw [gopWrite, hbytes, hwritten, hall, List.take_length]

theorem plain_holds {bytes : List UInt8} {packets : List (Outcome × List UInt8)} (h : Holds channel bytes)
    (hplain : ∀ packet ∈ packets, packet.1 = .ample ∧ Plain packet.2) :
    ∃ channel', recvPackets channel packets = some channel' ∧
      Holds channel' (bytes ++ packets.flatMap Prod.snd) := by
  induction packets generalizing channel bytes with
  | nil => exact ⟨channel, rfl, by rw [List.flatMap_nil, List.append_nil]; exact h⟩
  | cons packet packets ih =>
    obtain ⟨hample, hpacket⟩ := hplain packet (by simp)
    obtain ⟨channel', hrecv, hholds⟩ := ih (@media_holds channel bytes packet.2 h)
      fun packet hm => hplain packet (List.mem_cons_of_mem _ hm)
    refine ⟨channel', ?_, ?_⟩
    · rw [recvPackets, hample, recv_plain hpacket, Option.bind_some, if_pos rfl]
      exact hrecv
    · rw [List.flatMap_cons, ← List.append_assoc]
      exact hholds

/-- Nothing but zeros, and always the same byte behind them. -/
def blank (fill : UInt8) (size : Nat) : Delivery := ⟨List.replicate size 0, fun _ => fill⟩

/-- The bytes that are read of a blank delivery. -/
def blankRead (fill : UInt8) (size : Nat) : List UInt8 :=
  (List.range ((size + 187) / 188)).flatMap fun i => slice (blank fill size).body (188 * i) 188

theorem blank_body (fill : UInt8) (size i : Nat) :
    (blank fill size).body i = if i < size then 0 else fill := by
  rw [Delivery.body, blank]
  split
  · rename_i h
    rw [List.getD_eq_getElem _ _ (by simpa using h), List.getElem_replicate]
  · rename_i h
    rw [List.getD_eq_default _ _ (by simpa using h)]

theorem blank_bodies (fill : UInt8) (sizes : List Nat) :
    bodyOf (sizes.map (blank fill)) = List.replicate sizes.sum 0 := by
  induction sizes with
  | nil => rfl
  | cons size sizes ih =>
    rw [bodyOf] at ih ⊢
    rw [List.map_cons, List.flatMap_cons, ih, List.sum_cons, List.replicate_add]
    rfl

theorem blank_plain {fill : UInt8} (h : fill = 0 ∨ fill = 1) (size i : Nat) :
    Plain (slice (blank fill size).body (188 * i) 188) := by
  have hbyte : ∀ k, k < 188 → byteAt (slice (blank fill size).body (188 * i) 188) k = 0 ∨
      byteAt (slice (blank fill size).body (188 * i) 188) k = 1 := by
    intro k hk
    rw [byteAt, List.getD_eq_getElem _ _ (by rw [slice_length]; exact hk)]
    simp only [slice, List.getElem_map, blank_body]
    split
    · exact .inl rfl
    · rcases h with rfl | rfl
      · exact .inl rfl
      · exact .inr rfl
  refine ⟨fun heq => ?_, ?_⟩
  · rcases hbyte 0 (by decide) with hzero | hone <;> omega
  · rcases hbyte 1 (by decide) with hzero | hone
    · rw [hzero]
      rfl
    · rw [hone]
      rfl

/-- What is read of blank deliveries is written to the gop. -/
theorem blanks_hold {fill : UInt8} (h : fill = 0 ∨ fill = 1) {bytes : List UInt8} (hholds : Holds channel bytes)
    (sizes : List Nat) : ∃ channel',
      recvDeliveries (fun _ => .ample) channel (sizes.map (blank fill)) = some channel' ∧
        Holds channel' (bytes ++ sizes.flatMap (blankRead fill)) := by
  induction sizes generalizing channel bytes with
  | nil => exact ⟨channel, rfl, by rw [List.flatMap_nil, List.append_nil]; exact hholds⟩
  | cons size sizes ih =>
    have hsize : (blank fill size).size = size := List.length_replicate
    obtain ⟨next, hrecv, hnext⟩ := @plain_holds channel bytes
      ((List.range ((size + 187) / 188)).map fun i =>
        (Outcome.ample, slice (blank fill size).body (188 * i) 188)) hholds (by
      intro packet hm
      obtain ⟨i, -, rfl⟩ := List.mem_map.mp hm
      exact ⟨rfl, blank_plain h size i⟩)
    obtain ⟨channel', hrest, hholds'⟩ := ih hnext
    refine ⟨channel', ?_, ?_⟩
    · rw [List.map_cons, recvDeliveries, ymsChannelRecvTs, hsize, hrecv, Option.bind_some]
      exact hrest
    · rw [List.flatMap_cons, ← List.append_assoc, blankRead]
      rw [List.flatMap_map] at hholds'
      exact hholds'

theorem blank_zero {size : Nat} {b : UInt8} (h : b ∈ blankRead 0 size) : b = 0 := by
  obtain ⟨i, -, hm⟩ := List.mem_flatMap.mp h
  obtain ⟨k, -, rfl⟩ := List.mem_map.mp hm
  rw [blank_body]
  split <;> rfl

/-- The last packet of a delivery that ends inside it is read from behind. -/
theorem blank_behind {size : Nat} (h : ¬ 188 ∣ size) : 1 ∈ blankRead 1 size := by
  refine List.mem_flatMap.mpr ⟨size / 188, List.mem_range.mpr (by omega), ?_⟩
  refine List.mem_map.mpr ⟨187, by decide, ?_⟩
  rw [blank_body, if_neg (by omega)]

theorem alike_aligned {sizes sizes' : List Nat} (h : Alike sizes sizes') (hsum : sizes.sum = sizes'.sum) :
    ∀ size ∈ sizes, 188 ∣ size := by
  intro size hsize
  by_contra hnot
  have halone := key_alone
  obtain ⟨start, hstart⟩ : ∃ start, start = (beginGop .ample (Channel.create 1)).write (.media ample keyFrame) :=
    ⟨_, rfl⟩
  have hleads : Leads (Channel.create 1) start := .single ⟨.ample, keyFrame, true, by rw [hstart]; rfl⟩
  rw [← hstart] at halone
  obtain ⟨gop, hgops, -⟩ := halone.gop
  have hholds : Holds start gop.written := ⟨⟨gop, hgops, rfl⟩, by rw [halone.capacity]; decide⟩
  have hsame : ∀ fill, (recvDeliveries (fun _ => .ample) start (sizes.map (blank fill))).map Channel.gops =
      (recvDeliveries (fun _ => .ample) start (sizes'.map (blank 0))).map Channel.gops := by
    intro fill
    refine h 1 start _ _ _ hleads (fun _ => rfl) ?_ ?_ ?_
    · rw [List.map_map]
      exact List.map_congr_left (fun _ _ => List.length_replicate) |>.trans (List.map_id _)
    · rw [List.map_map]
      exact List.map_congr_left (fun _ _ => List.length_replicate) |>.trans (List.map_id _)
    · rw [blank_bodies, blank_bodies, hsum]
  obtain ⟨channel, hrecv, hzeros⟩ := blanks_hold (.inl rfl) hholds sizes
  obtain ⟨channel', hrecv', hones⟩ := blanks_hold (.inr rfl) hholds sizes
  have heq := (hsame 0).trans (hsame 1).symm
  rw [hrecv, hrecv', Option.map_some, Option.map_some, Option.some_inj] at heq
  obtain ⟨zeros, hgops', hwritten⟩ := hzeros.gop
  obtain ⟨ones, hgops'', hwritten'⟩ := hones.gop
  rw [hgops', hgops''] at heq
  rw [(List.cons.inj heq).1, hwritten', List.append_cancel_left_eq] at hwritten
  have hone : (1 : UInt8) ∈ sizes.flatMap (blankRead 1) := List.mem_flatMap.mpr ⟨size, hsize, blank_behind hnot⟩
  rw [hwritten] at hone
  obtain ⟨other, -, hm⟩ := List.mem_flatMap.mp hone
  exact absurd (blank_zero hm) (by decide)

end

/-- The gops of a channel do not depend on how a body is delivered just when each delivery is of
whole packets. -/
theorem deliveries_alike {sizes sizes' : List Nat} (hsum : sizes.sum = sizes'.sum) :
    Alike sizes sizes' ↔ (∀ size ∈ sizes, 188 ∣ size) ∧ ∀ size ∈ sizes', 188 ∣ size := by
  constructor
  · intro h
    refine ⟨alike_aligned h hsum, alike_aligned ?_ hsum.symm⟩
    intro gopsize channel outcomes deliveries deliveries' hleads hgop hsizes hsizes' hbody
    exact (h gopsize channel outcomes deliveries' deliveries hleads hgop hsizes' hsizes hbody.symm).symm
  · exact fun h => aligned_alike h.1 h.2

theorem deliveries_alike_two : Alike [376] [188, 188] ↔
    (∀ size ∈ [376], 188 ∣ size) ∧ ∀ size ∈ [188, 188], 188 ∣ size :=
  deliveries_alike rfl

/-- The packets behind a delivery that ends inside a packet are not found, and with them a key frame. -/
theorem delivery_misread :
    (bodyOf [⟨mediaPacket ++ keyFrame, fun _ => 0⟩] =
      bodyOf [⟨(mediaPacket ++ keyFrame).take 100, fun _ => 0⟩, ⟨(mediaPacket ++ keyFrame).drop 100, fun _ => 0⟩]) ∧
    ((recvDeliveries (fun _ => .ample) (Channel.create 1) [⟨mediaPacket ++ keyFrame, fun _ => 0⟩]).map
      fun channel => channel.gops.length) = some 1 ∧
    ((recvDeliveries (fun _ => .ample) (Channel.create 1)
      [⟨(mediaPacket ++ keyFrame).take 100, fun _ => 0⟩, ⟨(mediaPacket ++ keyFrame).drop 100, fun _ => 0⟩]).map
      fun channel => channel.gops.length) = some 0 := by
  decide +kernel

end Yclib.Live

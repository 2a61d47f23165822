import Yclib.Foss.Server

namespace Yclib.Foss.Registry

/-! The trs servers that are on line, by name and by load, over logins, timeouts and the
registrations of set-top boxes. -/

/-- The server and the table of the boxes with their trs servers: the rows that are stored, and
those that are on their way. -/
structure World where
  foss : Server
  rows : List (Rbt.Str × Rbt.Str)
  sent : List (Rbt.Str × Rbt.Str)

def World.create : World := ⟨.create, [], []⟩

/-- `server_get_done` is called for a box that has no row, with what there is of a connection; a
registration that was started comes to its end. -/
inductive Event
  | login (req : Option (Rbt.Str × Addr))
  | timeout (trsmgr : Nat)
  | getServer (stbid : Rbt.Str) (m : Option Bool)
  | stored (row : Rbt.Str × Rbt.Str)
  | failed (row : Rbt.Str × Rbt.Str)

def World.register (world : World) (stbid : Rbt.Str) (got : Got) : World :=
  match got.registry with
  | none => { world with foss := got.foss }
  | some trsmgr => { world with
      foss := got.foss
      sent := world.sent ++ [(stbid, (got.foss.trsmgr trsmgr).id)] }

/-- The callback for a registration that fails is not set: there is no result. -/
def step (world : World) : Event → Option World
  | .login req => some { world with foss := (world.foss.login req).1 }
  | .timeout trsmgr => (world.foss.trsLogin trsmgr).map fun foss => { world with foss := foss }
  | .getServer stbid m => (serverGetDone world.foss 0 m).map (world.register stbid)
  | .stored row => some { world with rows := world.rows ++ [row], sent := world.sent.erase row }
  | .failed _ => none

/-- The timer of a trs server is there as long as it is, and a registration ends once. -/
def Event.Can (world : World) : Event → Prop
  | .login _ => True
  | .timeout trsmgr => trsmgr ∈ Multimap.values world.foss.ntrsmgr
  | .getServer _ _ => True
  | .stored row => row ∈ world.sent
  | .failed row => row ∈ world.sent

def World.assigned (world : World) : List (Rbt.Str × Rbt.Str) := world.rows ++ world.sent

/-- How many boxes are assigned to the trs server of this name. -/
def World.boxes (world : World) (id : Rbt.Str) : Nat :=
  ((world.assigned.filter fun row => row.2 = id).map Prod.fst).dedup.length

/-- A server that is not on line logs in where no box is assigned to it. Where a server is selected
and there is a connection, the registration starts, and the box has no server yet; the number of
boxes stays below 2^32. No registration fails later. -/
def Event.Fine (world : World) : Event → Prop
  | .login req => ∀ peer addr, req = some (peer, addr) →
      Multimap.searchKey peer world.foss.strsmgr = none → world.boxes peer = 0
  | .timeout _ => True
  | .getServer stbid m => ∀ number trsmgr starts, world.foss.first = some (number, trsmgr) →
      m = some starts → starts = true ∧ stbid ∉ world.assigned.map Prod.fst ∧
        world.boxes (world.foss.trsmgr trsmgr).id + 1 < 2 ^ 32
  | .stored _ => True
  | .failed _ => False

inductive Reach : Option World → Prop
  | create : Reach (some .create)
  | step {world : World} {event : Event} (before : Reach (some world)) (can : event.Can world)
      (fine : event.Fine world) : Reach (step world event)

/-- Both trees hold the same servers, each once and under its name and its load; the load is the
number of its boxes, and none has fewer than the one that is selected. -/
structure World.Balanced (world : World) : Prop where
  same : ∀ trsmgr, trsmgr ∈ Multimap.values world.foss.strsmgr ↔ trsmgr ∈ Multimap.values world.foss.ntrsmgr
  once : (Multimap.values world.foss.strsmgr).Nodup ∧ (Multimap.values world.foss.ntrsmgr).Nodup
  named : ∀ id trsmgr, (id, trsmgr) ∈ world.foss.strsmgr → id = (world.foss.trsmgr trsmgr).id
  load : ∀ number trsmgr, (number, trsmgr) ∈ world.foss.ntrsmgr →
    number = world.boxes (world.foss.trsmgr trsmgr).id
  least : ∀ number trsmgr, world.foss.first = some (number, trsmgr) →
    ∀ other ∈ Multimap.values world.foss.ntrsmgr,
      world.boxes (world.foss.trsmgr trsmgr).id ≤ world.boxes (world.foss.trsmgr other).id

/-- What holds between two events: names are not shared, the trees are in order, and a box has one
server at most. -/
structure World.Sound (world : World) : Prop where
  same : ∀ trsmgr, trsmgr ∈ Multimap.values world.foss.strsmgr ↔ trsmgr ∈ Multimap.values world.foss.ntrsmgr
  sonce : (Multimap.values world.foss.strsmgr).Nodup
  nonce : (Multimap.values world.foss.ntrsmgr).Nodup
  named : ∀ id trsmgr, (id, trsmgr) ∈ world.foss.strsmgr → id = (world.foss.trsmgr trsmgr).id
  ids : ∀ trsmgr ∈ Multimap.values world.foss.ntrsmgr, ∀ other ∈ Multimap.values world.foss.ntrsmgr,
    (world.foss.trsmgr trsmgr).id = (world.foss.trsmgr other).id → trsmgr = other
  made : ∀ trsmgr ∈ Multimap.values world.foss.ntrsmgr, trsmgr < world.foss.made
  sorted : Multimap.Sorted world.foss.ntrsmgr
  load : ∀ number trsmgr, (number, trsmgr) ∈ world.foss.ntrsmgr →
    number = world.boxes (world.foss.trsmgr trsmgr).id
  boxes : (world.assigned.map Prod.fst).Nodup

section
variable {world : World}

/-- Boxes with one server each are counted by their rows. -/
theorem boxes_rows (h : (world.assigned.map Prod.fst).Nodup) (id : Rbt.Str) :
    world.boxes id = (world.assigned.filter fun row => row.2 = id).length := by
  have hnodup : ((world.assigned.filter fun row => row.2 = id).map Prod.fst).Nodup :=
    h.sublist (List.filter_sublist.map _)
  rw [World.boxes, hnodup.dedup, List.length_map]

theorem login_sound {req : Option (Rbt.Str × Addr)} (h : world.Sound)
    (hfine : (Event.login req).Fine world) : World.Sound { world with foss := (world.foss.login req).1 } := by
  cases req with
  | none => exact h
  | some req =>
    obtain ⟨peer, addr⟩ := req
    cases hsearch : Multimap.searchKey peer world.foss.strsmgr with
    | some trsmgr =>
      rw [Server.login_known hsearch]
      exact h
    | none =>
      rw [Server.login_new hsearch]
      have hnone := Multimap.search_none hsearch
      have hboxes := hfine peer addr rfl hsearch
      have hnew : world.foss.made ∉ Multimap.values world.foss.ntrsmgr :=
        fun hm => absurd (h.made _ hm) (lt_irrefl _)
      have hnews : world.foss.made ∉ Multimap.values world.foss.strsmgr := fun hm => hnew ((h.same _).mp hm)
      have hother : ∀ trsmgr ∈ Multimap.values world.foss.ntrsmgr,
          Function.update world.foss.trsmgr world.foss.made ⟨peer, addr⟩ trsmgr = world.foss.trsmgr trsmgr := by
        intro trsmgr hm
        exact Function.update_of_ne (h.made _ hm).ne _ _
      have hpeer : ∀ trsmgr ∈ Multimap.values world.foss.ntrsmgr, (world.foss.trsmgr trsmgr).id ≠ peer := by
        intro trsmgr hm heq
        obtain ⟨⟨id, trsmgr'⟩, hmem, rfl⟩ := List.mem_map.mp ((h.same trsmgr).mpr hm)
        exact hnone _ hmem ((h.named _ _ hmem).trans heq)
      constructor
      · intro trsmgr
        rw [Multimap.mem_insert_values, Multimap.mem_insert_values, h.same]
      · exact Multimap.insert_nodup h.sonce hnews
      · exact Multimap.insert_nodup h.nonce hnew
      · intro id trsmgr hm
        rcases Multimap.mem_insert.mp hm with heq | hm
        · obtain ⟨rfl, rfl⟩ := Prod.mk.inj heq
          simp
        · have hv : trsmgr ∈ Multimap.values world.foss.ntrsmgr := (h.same _).mp (List.mem_map_of_mem hm)
          exact (h.named _ _ hm).trans (congrArg Trsmgr.id (hother _ hv)).symm
      · intro trsmgr hm other ho heq
        rcases Multimap.mem_insert_values.mp hm with rfl | hm <;> rcases Multimap.mem_insert_values.mp ho with rfl | ho
        · rfl
        · simp only [Function.update_self, hother _ ho] at heq
          exact absurd heq.symm (hpeer _ ho)
        · simp only [Function.update_self, hother _ hm] at heq
          exact absurd heq (hpeer _ hm)
        · simp only [hother _ hm, hother _ ho] at heq
          exact h.ids _ hm _ ho heq
      · intro trsmgr hm
        rcases Multimap.mem_insert_values.mp hm with rfl | hm
        · exact Nat.lt_succ_self _
        · exact Nat.lt_succ_of_lt (h.made _ hm)
      · exact Multimap.insert_sorted h.sorted
      · intro number trsmgr hm
        rcases Multimap.mem_insert.mp hm with heq | hm
        · obtain ⟨rfl, rfl⟩ := Prod.mk.inj heq
          simpa [World.boxes, World.assigned] using hboxes.symm
        · have hv : trsmgr ∈ Multimap.values world.foss.ntrsmgr := List.mem_map_of_mem hm
          simp only [hother _ hv]
          exact h.load _ _ hm
      · exact h.boxes

theorem timeout_sound {trsmgr : Nat} (h : world.Sound) (hcan : trsmgr ∈ Multimap.values world.foss.ntrsmgr) :
    ∃ foss, world.foss.trsLogin trsmgr = some foss ∧ World.Sound { world with foss := foss } := by
  obtain ⟨strsmgr, hs, hsperm, hsmem⟩ := Multimap.delete_perm ((h.same _).mpr hcan) h.sonce
  obtain ⟨ntrsmgr, hn, hnperm, hnmem⟩ := Multimap.delete_perm hcan h.nonce
  have hnvalues : ∀ other ∈ Multimap.values ntrsmgr, other ∈ Multimap.values world.foss.ntrsmgr :=
    fun other hm => hnperm.mem_iff.mpr (List.mem_cons_of_mem _ hm)
  have hsnodup := (hsperm.nodup_iff.mp h.sonce)
  have hnnodup := (hnperm.nodup_iff.mp h.nonce)
  refine ⟨_, by rw [Server.trsLogin, hs, Option.bind_some, hn, Option.map_some], ?_⟩
  constructor
  · intro other
    have hiff := h.same other
    rw [hsperm.mem_iff, hnperm.mem_iff, List.mem_cons, List.mem_cons] at hiff
    by_cases heq : other = trsmgr
    · subst heq
      simp [(List.nodup_cons.mp hsnodup).1, (List.nodup_cons.mp hnnodup).1]
    · simpa [heq] using hiff
  · exact (List.nodup_cons.mp hsnodup).2
  · exact (List.nodup_cons.mp hnnodup).2
  · exact fun id other hm => h.named _ _ ((hsmem _).mp hm).1
  · exact fun t hm other ho => h.ids _ (hnvalues _ hm) _ (hnvalues _ ho)
  · exact fun other hm => h.made _ (hnvalues _ hm)
  · exact Multimap.delete_sorted h.sorted hn
  · exact fun number other hm => h.load _ _ ((hnmem _).mp hm).1
  · exact h.boxes

/-- A box is assigned to the server that is selected, whose load goes up. -/
theorem register_sound {stbid : Rbt.Str} {number trsmgr : Nat} (h : world.Sound)
    (hfirst : world.foss.first = some (number, trsmgr)) (hnew : stbid ∉ world.assigned.map Prod.fst)
    (hlt : world.boxes (world.foss.trsmgr trsmgr).id + 1 < 2 ^ 32) :
    ∃ foss, world.foss.addLoad number trsmgr = some foss ∧
      World.Sound { world with
        foss := foss
        sent := world.sent ++ [(stbid, (foss.trsmgr trsmgr).id)] } := by
  obtain ⟨rest, hrest⟩ := List.head?_eq_some_iff.mp hfirst
  have hmem : (number, trsmgr) ∈ world.foss.ntrsmgr := by rw [hrest]; exact List.mem_cons_self
  have hcan : trsmgr ∈ Multimap.values world.foss.ntrsmgr := List.mem_map_of_mem hmem
  obtain ⟨ntrsmgr, hn, hnperm, hnmem⟩ := Multimap.delete_perm hcan h.nonce
  have hnnodup := hnperm.nodup_iff.mp h.nonce
  have hvalues : ∀ other, other ∈ Multimap.values (Multimap.insertKey (u32 (u32 number + 1)) trsmgr ntrsmgr) ↔
      other ∈ Multimap.values world.foss.ntrsmgr := by
    intro other
    rw [Multimap.mem_insert_values, hnperm.mem_iff, List.mem_cons]
  have hboxes : ((world.assigned ++ [(stbid, (world.foss.trsmgr trsmgr).id)]).map Prod.fst).Nodup := by
    rw [List.map_append]
    refine List.nodup_append.mpr ⟨h.boxes, List.nodup_singleton _, ?_⟩
    intro a ha b hb heq
    exact hnew (by rwa [heq, List.mem_singleton.mp hb] at ha)
  have hassigned : ∀ world' : World, world'.assigned = world.assigned ++ [(stbid, (world.foss.trsmgr trsmgr).id)] →
      ∀ id, world'.boxes id = world.boxes id + if id = (world.foss.trsmgr trsmgr).id then 1 else 0 := by
    intro world' heq id
    rw [boxes_rows (by rw [heq]; exact hboxes), boxes_rows h.boxes, heq, List.filter_append, List.length_append]
    congr 1
    by_cases hid : id = (world.foss.trsmgr trsmgr).id
    · simp [hid]
    · simp [hid, Ne.symm hid]
  refine ⟨_, by rw [Server.addLoad, hn, Option.map_some], ?_⟩
  have hsent : ∀ foss : Server, (World.mk foss world.rows
      (world.sent ++ [(stbid, (world.foss.trsmgr trsmgr).id)])).assigned =
        world.assigned ++ [(stbid, (world.foss.trsmgr trsmgr).id)] := by
    intro foss
    simp [World.assigned]
  constructor
  · exact fun other => (h.same other).trans (hvalues other).symm
  · exact h.sonce
  · exact Multimap.insert_nodup (List.nodup_cons.mp hnnodup).2 (List.nodup_cons.mp hnnodup).1
  · exact h.named
  · exact fun t hm other ho => h.ids _ ((hvalues _).mp hm) _ ((hvalues _).mp ho)
  · exact fun other hm => h.made _ ((hvalues _).mp hm)
  · exact Multimap.insert_sorted (Multimap.delete_sorted h.sorted hn)
  · intro number' other hm
    rw [hassigned _ (hsent _)]
    rcases Multimap.mem_insert.mp hm with heq | hm
    · obtain ⟨rfl, rfl⟩ := Prod.mk.inj heq
      have hload := h.load _ _ hmem
      rw [if_pos rfl, u32_of_lt (show number < 2 ^ 32 by omega), u32_of_lt (by omega), hload]
    · obtain ⟨hold, hne⟩ := (hnmem _).mp hm
      have hid : (world.foss.trsmgr other).id ≠ (world.foss.trsmgr trsmgr).id :=
        fun heq => hne (h.ids _ (List.mem_map_of_mem hold) _ hcan heq)
      rw [if_neg hid, h.load _ _ hold, Nat.add_zero]
  · rw [hsent]
    exact hboxes

/-- A row that is stored was assigned before. -/
theorem stored_sound {row : Rbt.Str × Rbt.Str} (h : world.Sound) (hcan : row ∈ world.sent) :
    World.Sound { world with rows := world.rows ++ [row], sent := world.sent.erase row } := by
  have hperm : (World.mk world.foss (world.rows ++ [row]) (world.sent.erase row)).assigned.Perm world.assigned := by
    simp only [World.assigned, List.append_assoc]
    exact (List.perm_cons_erase hcan).symm.append_left world.rows
  have hnodup := ((hperm.map Prod.fst).nodup_iff.mpr h.boxes)
  have hboxes : ∀ id, (World.mk world.foss (world.rows ++ [row]) (world.sent.erase row)).boxes id =
      world.boxes id := by
    intro id
    rw [boxes_rows hnodup, boxes_rows h.boxes]
    exact (hperm.filter _).length_eq
  refine ⟨h.same, h.sonce, h.nonce, h.named, h.ids, h.made, h.sorted, ?_, hnodup⟩
  intro number trsmgr hm
  rw [hboxes]
  exact h.load _ _ hm

theorem step_sound {event : Event} (h : world.Sound) (hcan : event.Can world) (hfine : event.Fine world) :
    ∃ world', step world event = some world' ∧ world'.Sound := by
  cases event with
  | login req => exact ⟨_, rfl, login_sound h hfine⟩
  | timeout trsmgr =>
    obtain ⟨foss, hfoss, hsound⟩ := timeout_sound h hcan
    exact ⟨_, by rw [step, hfoss, Option.map_some], hsound⟩
  | getServer stbid m =>
    have hstep : step world (.getServer stbid m) =
      (serverGetDone world.foss 0 m).map (world.register stbid) := rfl
    rw [hstep]
    cases hfirst : world.foss.first with
    | none => exact ⟨_, by rw [get_none hfirst]; rfl, h⟩
    | some first =>
      obtain ⟨number, trsmgr⟩ := first
      cases m with
      | none => exact ⟨_, by rw [get_out hfirst]; rfl, h⟩
      | some starts =>
        obtain ⟨rfl, hnew, hlt⟩ := hfine number trsmgr starts hfirst rfl
        obtain ⟨foss, hfoss, hsound⟩ := register_sound h hfirst hnew hlt
        exact ⟨_, by rw [get_registry hfirst hfoss]; rfl, hsound⟩
  | stored row => exact ⟨_, rfl, stored_sound h hcan⟩
  | failed row => exact absurd hfine id

theorem create_sound : World.create.Sound where
  same := fun _ => Iff.rfl
  sonce := List.nodup_nil
  nonce := List.nodup_nil
  named := by simp [World.create, Server.create]
  ids := by simp [World.create, Server.create, Multimap.values]
  made := by simp [World.create, Server.create, Multimap.values]
  sorted := List.Pairwise.nil
  load := by simp [World.create, Server.create]
  boxes := List.nodup_nil

end

def run (events : List Event) : Option World := events.foldlM step .create

end Yclib.Foss.Registry

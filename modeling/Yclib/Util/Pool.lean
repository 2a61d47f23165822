import Yclib.Util.ListHead
import Yclib.Util.Network

namespace Yclib.Pool
open ListHead

/-! `rns_mpool.c`: blocks of one size in a region of memory that begins with the header of
the pool and a node for each block, which is in the free list while the block is. -/

/-- `sizeof(list_head_t)`. -/
def listHeadSize : Nat := 16

/-- `sizeof(rns_mpool_t)`. -/
def mpoolSize : Nat := 40

/-- `rns_mpool_t` at `addr`, where the head of its list is too, with the links that the
memory around holds. -/
structure Mpool where
  addr : Nat
  links : Links Nat
  blockSize : Nat
  availBlockNum : Nat
  headBlockNum : Nat
  buf : Nat

/-- The node of a block. -/
def Mpool.node (pool : Mpool) (idx : Nat) : Nat := pool.addr + mpoolSize + idx * listHeadSize

def Mpool.block (pool : Mpool) (idx : Nat) : Nat := pool.buf + u32 (idx * pool.blockSize)

/-- The loop of `rns_mpool_init`. -/
def addNodes (links : Links Nat) (head walker : Nat) : Nat → Option (Links Nat)
  | 0 => some links
  | n + 1 =>
    (rnsListAdd links walker head).bind fun links => addNodes links head (walker + listHeadSize) n

/-- `rns_mpool_init`. There is no pool in a region it turns down. -/
def rnsMpoolInit (links : Links Nat) (addr size blockSize : Nat) : Option Mpool :=
  if size < blockSize ∨ size < mpoolSize ∨ addr = 0 ∨ size % blockSize ≠ 0 then none
  else
    let num := size / blockSize
    let headerSize := u32 (listHeadSize * num + mpoolSize)
    let h := headerSize / blockSize
    let m := headerSize % blockSize
    let headBlockNum := if m ≠ 0 then u32 (h + 1) else h
    let availBlockNum := u32Sub num headBlockNum
    (addNodes (initListHead links addr) addr (addr + mpoolSize) availBlockNum).map fun links =>
      { addr := addr
        links := links
        blockSize := blockSize
        availBlockNum := availBlockNum
        headBlockNum := headBlockNum
        buf := addr + u32 (headBlockNum * blockSize) }

/-- `rns_mpool_alloc`, which keeps the last block back. -/
def rnsMpoolAlloc (pool : Mpool) : Option (Mpool × Option Nat) :=
  (pool.links.next pool.addr).bind fun ptr =>
    if pool.links.prev pool.addr = some ptr then some (pool, none)
    else
      let idx := u32 ((ptr - pool.addr - mpoolSize) / listHeadSize)
      (rnsListDel pool.links ptr).map fun links =>
        ({ pool with links := links, availBlockNum := u32Sub pool.availBlockNum 1 },
          some (pool.block idx))

/-- `rns_memset`, for the links there are among the bytes it clears. -/
def rnsMemset (links : Links Nat) (block size : Nat) : Links Nat where
  next a := if a < block + size ∧ block < a + listHeadSize then none else links.next a
  prev a := if a < block + size ∧ block < a + listHeadSize then none else links.prev a

/-- `rns_mpool_free`. -/
def rnsMpoolFree (pool : Mpool) (block : Nat) : Option Mpool :=
  let links := rnsMemset pool.links block pool.blockSize
  let idx := u32 (block - pool.buf) / pool.blockSize
  (rnsListAdd links (pool.node idx) pool.addr).map fun links =>
    { pool with links := links, availBlockNum := u32 (pool.availBlockNum + 1) }

inductive Op
  | alloc
  | free (block : Nat)

/-- A call, with the blocks that are outstanding. No other block is ever handed back. -/
def step (pool : Mpool) (blocks : List Nat) : Op → Option (Mpool × List Nat)
  | .alloc => (rnsMpoolAlloc pool).map fun result => (result.1, result.2.toList ++ blocks)
  | .free block =>
    if block ∈ blocks then (rnsMpoolFree pool block).map fun pool => (pool, blocks.erase block)
    else some (pool, blocks)

def run (pool : Mpool) (blocks : List Nat) : List Op → Option (Mpool × List Nat)
  | [] => some (pool, blocks)
  | op :: ops => (step pool blocks op).bind fun result => run result.1 result.2 ops

/-- The blocks that the header and the nodes take of a region. -/
def headBlocks (size blockSize : Nat) : Nat :=
  (listHeadSize * (size / blockSize) + mpoolSize + blockSize - 1) / blockSize

/-- So many blocks are at the end of the region, behind the nodes. -/
structure Laid (pool : Mpool) (size avail : Nat) : Prop where
  pos : 0 < pool.blockSize
  behind : pool.node (size / pool.blockSize) ≤ pool.buf
  top : pool.buf + avail * pool.blockSize = pool.addr + size
  few : avail ≤ size / pool.blockSize
  small : size < 2 ^ 32

/-- Each block is either in the free list or used. -/
structure Inv (pool : Mpool) (avail : Nat) (free used : List Nat) : Prop where
  ring : Ring pool.links pool.addr (free.map pool.node)
  count : pool.availBlockNum = free.length
  each : (free ++ used).Perm (List.range avail)

section
variable {pool : Mpool} {size avail : Nat} {free used : List Nat}

theorem node_injective (pool : Mpool) : Function.Injective pool.node := by
  intro i j h
  simp only [Mpool.node, listHeadSize] at h
  omega

theorem node_ne_head (pool : Mpool) (i : Nat) : pool.node i ≠ pool.addr := by
  simp only [Mpool.node, mpoolSize]
  omega

theorem block_end {i : Nat} (hi : i < avail) :
    i * pool.blockSize + pool.blockSize ≤ avail * pool.blockSize := by
  rw [← Nat.succ_mul]
  exact Nat.mul_le_mul_right _ hi

theorem block_eq (h : Laid pool size avail) {i : Nat} (hi : i < avail) :
    pool.block i = pool.buf + i * pool.blockSize := by
  have hend := @block_end pool _ _ hi
  have hpos := h.pos
  have htop := h.top
  have hbehind := h.behind
  have hsmall := h.small
  simp only [Mpool.node, mpoolSize] at hbehind
  rw [Mpool.block, u32_of_lt (by omega)]

theorem block_idx (h : Laid pool size avail) {i : Nat} (hi : i < avail) :
    u32 (pool.block i - pool.buf) / pool.blockSize = i := by
  have hend := @block_end pool _ _ hi
  have hpos := h.pos
  have htop := h.top
  have hbehind := h.behind
  have hsmall := h.small
  simp only [Mpool.node, mpoolSize] at hbehind
  rw [block_eq h hi, Nat.add_sub_cancel_left, u32_of_lt (by omega)]
  exact Nat.mul_div_cancel i hpos

theorem node_idx (h : Laid pool size avail) {i : Nat} (hi : i < avail) :
    u32 ((pool.node i - pool.addr - mpoolSize) / listHeadSize) = i := by
  have hfew := h.few
  have hdiv := Nat.div_le_self size pool.blockSize
  have hsmall := h.small
  have hsub : pool.node i - pool.addr - mpoolSize = i * listHeadSize := by
    simp only [Mpool.node]
    omega
  rw [hsub, Nat.mul_div_cancel i (by decide), u32_of_lt (by omega)]

theorem block_disjoint (h : Laid pool size avail) {i j : Nat} (hi : i < avail) (hj : j < avail)
    (hne : i ≠ j) : pool.block i + pool.blockSize ≤ pool.block j ∨
      pool.block j + pool.blockSize ≤ pool.block i := by
  rw [block_eq h hi, block_eq h hj]
  obtain hlt | hlt := Nat.lt_or_gt_of_ne hne
  · left
    have := Nat.mul_le_mul_right pool.blockSize (Nat.succ_le_of_lt hlt)
    rw [Nat.succ_mul] at this
    omega
  · right
    have := Nat.mul_le_mul_right pool.blockSize (Nat.succ_le_of_lt hlt)
    rw [Nat.succ_mul] at this
    omega

/-- The block of a used index is inside the region and behind the nodes. -/
theorem block_inside (h : Laid pool size avail) {i : Nat} (hi : i < avail) :
    pool.node (size / pool.blockSize) ≤ pool.block i ∧
      pool.block i + pool.blockSize ≤ pool.addr + size := by
  have hend := @block_end pool _ _ hi
  have htop := h.top
  have hbehind := h.behind
  rw [block_eq h hi]
  omega

/-- The links of the list of free blocks are not among the bytes of a used one. -/
theorem memset_ring (h : Laid pool size avail) (hr : Ring pool.links pool.addr (free.map pool.node))
    (hfree : ∀ i ∈ free, i < avail) {i : Nat} (hi : i < avail) :
    Ring (rnsMemset pool.links (pool.block i) pool.blockSize) pool.addr (free.map pool.node) := by
  have hbelow : ∀ y ∈ pool.addr :: free.map pool.node, y + listHeadSize ≤ pool.block i := by
    intro y hy
    have hin := (block_inside h hi).1
    rcases List.mem_cons.mp hy with rfl | hy
    · simp only [Mpool.node, mpoolSize, listHeadSize] at hin ⊢
      omega
    · obtain ⟨j, hj, rfl⟩ := List.mem_map.mp hy
      have hlt := Nat.lt_of_lt_of_le (hfree j hj) h.few
      simp only [Mpool.node, mpoolSize, listHeadSize] at hin ⊢
      omega
  refine ring_frame hr ?_ ?_
  · intro y hy
    simp only [rnsMemset]
    rw [if_neg (fun hc => absurd hc.2 (Nat.not_lt.mpr (hbelow y hy)))]
  · intro y hy
    simp only [rnsMemset]
    rw [if_neg (fun hc => absurd hc.2 (Nat.not_lt.mpr (hbelow y hy)))]

theorem inv_bounds (h : Inv pool avail free used) : ∀ i ∈ free ++ used, i < avail := fun _ hi =>
  List.mem_range.mp (h.each.mem_iff.mp hi)

theorem inv_nodup (h : Inv pool avail free used) : (free ++ used).Nodup :=
  h.each.nodup_iff.mpr List.nodup_range

theorem inv_few (h : Inv pool avail free used) : free.length + used.length = avail := by
  simpa using h.each.length_eq

/-- `rns_mpool_alloc` takes the first free block unless it is the last. -/
theorem alloc_inv (hl : Laid pool size avail) (h : Inv pool avail free used) :
    (rnsMpoolAlloc pool = some (pool, none) ∧ free.length ≤ 1) ∨ ∃ i rest links', free = i :: rest ∧
      rest ≠ [] ∧ rnsMpoolAlloc pool = some ({ pool with
        links := links', availBlockNum := u32Sub pool.availBlockNum 1 }, some (pool.block i)) ∧
      Inv { pool with links := links', availBlockNum := u32Sub pool.availBlockNum 1 }
        avail rest (i :: used) := by
  have hring := h.ring
  rcases free with _ | ⟨i, _ | ⟨j, rest⟩⟩
  · left
    simp [rnsMpoolAlloc, hring.chain.1, hring.chain.2]
  · left
    simp [rnsMpoolAlloc, hring.chain.1, hring.chain.2.2.2]
  · right
    have hi : i < avail := inv_bounds h i (by simp)
    have hfirst : pool.links.next pool.addr = some (pool.node i) := hring.chain.1
    have hlast : pool.links.prev pool.addr ≠ some (pool.node i) := by
      obtain ⟨p, hp, he⟩ := chain_last hring.chain.2.2.2.2
      have hnodup := (List.nodup_cons.mp (List.nodup_cons.mp hring.nodup).2).1
      rw [he]
      rintro hpi
      cases hpi
      exact hnodup hp
    obtain ⟨links', hdel, hring', -, -⟩ := @del_ring _ _ _ _ [] _ _ hring
    refine ⟨i, j :: rest, links', rfl, List.cons_ne_nil _ _, ?_, hring', ?_, ?_⟩
    · simp only [rnsMpoolAlloc, hfirst, Option.bind_some, if_neg hlast, hdel, Option.map_some,
        node_idx hl hi]
    · have hcount := h.count
      have hfew := inv_few h
      have hsmall := hl.small
      have hle := hl.few
      have hdiv := Nat.div_le_self size pool.blockSize
      simp only [List.length_cons] at hcount hfew ⊢
      rw [u32_sub_of_le (by omega) (by omega)]
      omega
    · exact (List.perm_middle.trans (by simp)).trans h.each

/-- `rns_mpool_alloc` gives NULL as soon as there is no second free block. -/
theorem alloc_null (hl : Laid pool size avail) (h : Inv pool avail free used) :
    (∃ pool', rnsMpoolAlloc pool = some (pool', none)) ↔ free.length ≤ 1 := by
  obtain ⟨hnone, hle⟩ | ⟨i, rest, links', rfl, hrest, hsome, -⟩ := alloc_inv hl h
  · exact iff_of_true ⟨pool, hnone⟩ hle
  · have hpos := List.length_pos_of_ne_nil hrest
    refine iff_of_false ?_ (by simp only [List.length_cons]; omega)
    rintro ⟨pool', hnull⟩
    rw [hsome] at hnull
    cases hnull

/-- A block that is handed back is free again. -/
theorem free_inv (hl : Laid pool size avail) (h : Inv pool avail free used) {i : Nat}
    (hi : i ∈ used) : ∃ links', rnsMpoolFree pool (pool.block i) = some { pool with
        links := links', availBlockNum := u32 (pool.availBlockNum + 1) } ∧
      Inv { pool with links := links', availBlockNum := u32 (pool.availBlockNum + 1) }
        avail (i :: free) (used.erase i) := by
  have hbound : i < avail := inv_bounds h i (by simp [hi])
  have hfree : i ∉ free := fun hm => (List.nodup_append.mp (inv_nodup h)).2.2 i hm i hi rfl
  have hring := memset_ring hl h.ring (fun j hj => inv_bounds h j (by simp [hj])) hbound
  have hnew : pool.node i ∉ pool.addr :: free.map pool.node := by
    intro hm
    rcases List.mem_cons.mp hm with he | hm
    · exact node_ne_head pool i he
    · exact hfree ((List.mem_map_of_injective (node_injective pool)).mp hm)
  obtain ⟨links', hadd, hring', -⟩ := add_ring hring hnew
  refine ⟨links', ?_, hring', ?_, ?_⟩
  · simp only [rnsMpoolFree, block_idx hl hbound, hadd, Option.map_some]
  · have hcount := h.count
    have hfew := inv_few h
    have hsmall := hl.small
    have hle := hl.few
    have hdiv := Nat.div_le_self size pool.blockSize
    have hused := List.length_pos_of_mem hi
    simp only [List.length_cons, hcount]
    exact u32_of_lt (by omega)
  · exact (List.perm_middle.symm.trans ((List.perm_cons_erase hi).symm.append_left free)).trans h.each

theorem erase_map {f : Nat → Nat} {l : List Nat} {x : Nat} (hf : ∀ y ∈ l, f y = f x → y = x)
    (hx : x ∈ l) : (l.map f).erase (f x) = (l.erase x).map f := by
  induction l with
  | nil => cases hx
  | cons y l ih =>
    by_cases hyx : y = x
    · simp [hyx]
    · have hne : f y ≠ f x := fun he => hyx (hf y (by simp) he)
      have hmem : x ∈ l := (List.mem_cons.mp hx).resolve_left (Ne.symm hyx)
      rw [List.map_cons, List.erase_cons_tail (by simpa using hne), List.erase_cons_tail (by simpa using hyx),
        List.map_cons, ih (fun z hz => hf z (List.mem_cons_of_mem _ hz)) hmem]

/-- What the outstanding blocks and the pool are at any time. -/
structure Held (pool : Mpool) (avail : Nat) (blocks : List Nat) : Prop where
  inv : ∃ free used, blocks = used.map pool.block ∧ Inv pool avail free used

theorem step_held (hl : Laid pool size avail) {blocks : List Nat} (h : Held pool avail blocks)
    (op : Op) : ∃ links' count blocks', step pool blocks op =
        some ({ pool with links := links', availBlockNum := count }, blocks') ∧
      Held { pool with links := links', availBlockNum := count } avail blocks' := by
  obtain ⟨free, used, rfl, hinv⟩ := h.inv
  cases op with
  | alloc =>
    obtain ⟨hnone, -⟩ | ⟨i, rest, links', rfl, -, hsome, hinv'⟩ := alloc_inv hl hinv
    · exact ⟨pool.links, pool.availBlockNum, _, by simp [step, hnone], h⟩
    · exact ⟨links', _, _, by simp only [step, hsome, Option.map_some]; rfl,
        rest, i :: used, rfl, hinv'⟩
  | free block =>
    by_cases hmem : block ∈ used.map pool.block
    · obtain ⟨i, hi, rfl⟩ := List.mem_map.mp hmem
      obtain ⟨links', hfree, hinv'⟩ := free_inv hl hinv hi
      refine ⟨links', _, (used.map pool.block).erase (pool.block i),
        by simp only [step, hmem, if_true, hfree, Option.map_some], i :: free, used.erase i, ?_, hinv'⟩
      refine erase_map ?_ hi
      intro j hj hsame
      by_contra hne
      have := block_disjoint hl (inv_bounds hinv j (by simp [hj])) (inv_bounds hinv i (by simp [hi])) hne
      have hpos := hl.pos
      omega
    · exact ⟨pool.links, pool.availBlockNum, _, by simp only [step, hmem, if_false], h⟩

theorem run_held (hl : Laid pool size avail) {blocks : List Nat} (h : Held pool avail blocks)
    (ops : List Op) : ∃ links' count blocks', run pool blocks ops =
        some ({ pool with links := links', availBlockNum := count }, blocks') ∧
      Held { pool with links := links', availBlockNum := count } avail blocks' := by
  induction ops generalizing pool blocks with
  | nil => exact ⟨pool.links, pool.availBlockNum, blocks, rfl, h⟩
  | cons op ops ih =>
    obtain ⟨links, count, blocks', hstep, hheld⟩ := step_held hl h op
    have hl' : Laid { pool with links := links, availBlockNum := count } size avail :=
      ⟨hl.pos, hl.behind, hl.top, hl.few, hl.small⟩
    obtain ⟨links', count', blocks'', hrun, hheld'⟩ := ih hl' hheld
    exact ⟨links', count', blocks'', by simp only [run, hstep, Option.bind_some, hrun], hheld'⟩

end

theorem add_nodes_ring {links : Links Nat} {head walker : Nat} {nodes : List Nat} {n : Nat}
    (h : Ring links head nodes) (hhead : head < walker) (hnew : ∀ y ∈ nodes, y < walker) :
    ∃ links', addNodes links head walker n = some links' ∧
      Ring links' head (((List.range n).map fun i => walker + i * listHeadSize).reverse ++ nodes) := by
  induction n generalizing links walker nodes with
  | zero => exact ⟨links, rfl, h⟩
  | succ n ih =>
    have hfresh : walker ∉ head :: nodes := by
      intro hm
      rcases List.mem_cons.mp hm with he | hm
      · omega
      · exact absurd (hnew walker hm) (lt_irrefl _)
    obtain ⟨links', hadd, hring, -⟩ := add_ring h hfresh
    have hstride : walker < walker + listHeadSize := Nat.lt_add_of_pos_right (by decide)
    obtain ⟨links'', hrest, hring'⟩ := @ih links' (walker + listHeadSize) (walker :: nodes) hring
      (by omega) (by
        intro y hy
        rcases List.mem_cons.mp hy with rfl | hy
        · exact hstride
        · exact (hnew y hy).trans hstride)
    refine ⟨links'', by simp only [addNodes, hadd, Option.bind_some, hrest], ?_⟩
    have hshift : (List.range (n + 1)).map (fun i => walker + i * listHeadSize) =
        walker :: (List.range n).map fun i => walker + listHeadSize + i * listHeadSize := by
      rw [List.range_succ_eq_map, List.map_cons, List.map_map]
      refine congrArg₂ _ (by simp) (List.map_congr_left fun i _ => ?_)
      simp only [Function.comp, Nat.succ_mul]
      omega
    rw [hshift, List.reverse_cons, List.append_assoc]
    exact hring'

/-- The header and the nodes are inside the blocks kept for them. -/
theorem head_blocks_cover {size blockSize : Nat} (hpos : 0 < blockSize) :
    listHeadSize * (size / blockSize) + mpoolSize ≤ headBlocks size blockSize * blockSize := by
  rw [headBlocks]
  generalize listHeadSize * (size / blockSize) + mpoolSize = bytes
  have hsplit := Nat.div_add_mod (bytes + blockSize - 1) blockSize
  have hlt := Nat.mod_lt (bytes + blockSize - 1) hpos
  rw [Nat.mul_comm]
  omega

/-- `head_block_num`, for a header of so many bytes. -/
def headNum (headerSize blockSize : Nat) : Nat :=
  if headerSize % blockSize ≠ 0 then u32 (headerSize / blockSize + 1) else headerSize / blockSize

/-- What a region is that is not turned down, and the pool in it. -/
theorem init_some {links : Links Nat} {addr size blockSize : Nat} {pool : Mpool}
    (hinit : rnsMpoolInit links addr size blockSize = some pool) :
    0 < blockSize ∧ size / blockSize * blockSize = size ∧
      pool.addr = addr ∧ pool.blockSize = blockSize ∧
      pool.headBlockNum = headNum (u32 (listHeadSize * (size / blockSize) + mpoolSize)) blockSize ∧
      pool.availBlockNum = u32Sub (size / blockSize) pool.headBlockNum ∧
      pool.buf = addr + u32 (pool.headBlockNum * blockSize) ∧
      addNodes (initListHead links addr) addr (addr + mpoolSize) pool.availBlockNum = some pool.links := by
  simp only [rnsMpoolInit] at hinit
  split at hinit
  · cases hinit
  · rename_i hok
    simp only [not_or, not_lt, ne_eq, not_not] at hok
    obtain ⟨-, hsize, -, hdvd⟩ := hok
    obtain ⟨links', hadd, rfl⟩ := Option.map_eq_some_iff.mp hinit
    refine ⟨?_, Nat.div_mul_cancel (Nat.dvd_of_mod_eq_zero hdvd), rfl, rfl, rfl, rfl, rfl, hadd⟩
    rcases Nat.eq_zero_or_pos blockSize with rfl | hpos
    · simp only [mpoolSize, Nat.mod_zero] at hsize hdvd
      omega
    · exact hpos

/-- The blocks of the header cover it, and no block fewer does. -/
theorem head_num_covers {headerSize blockSize : Nat} (hpos : 0 < blockSize) (hsize : headerSize < 2 ^ 32) :
    headerSize ≤ headNum headerSize blockSize * blockSize ∧
      headNum headerSize blockSize * blockSize < headerSize + blockSize := by
  have hsplit := Nat.div_add_mod headerSize blockSize
  have hlt := Nat.mod_lt headerSize hpos
  have hdiv := Nat.div_le_self headerSize blockSize
  rw [Nat.mul_comm] at hsplit
  unfold headNum
  split
  · rename_i hm
    have hmul := Nat.le_mul_of_pos_right (headerSize / blockSize) hpos
    rw [u32_of_lt (by omega), Nat.succ_mul]
    omega
  · omega

/-- `rns_mpool_init` rounds the blocks of the header up. -/
theorem head_num_blocks {size blockSize : Nat} (hpos : 0 < blockSize)
    (hsize : listHeadSize * (size / blockSize) + mpoolSize < 2 ^ 32) :
    headNum (listHeadSize * (size / blockSize) + mpoolSize) blockSize = headBlocks size blockSize := by
  obtain ⟨hcover, hleast⟩ := head_num_covers hpos hsize
  rw [headBlocks]
  apply (Nat.div_eq_of_lt_le _ _).symm
  · omega
  · rw [Nat.succ_mul]
    omega

/-- The pool that `rns_mpool_init` makes where there is room for the header. -/
theorem init_held {links : Links Nat} {addr size blockSize : Nat} {pool : Mpool}
    (hsize : size < 2 ^ 32) (hinit : rnsMpoolInit links addr size blockSize = some pool)
    (hfit : headBlocks size blockSize ≤ size / blockSize) :
    pool.addr = addr ∧ pool.blockSize = blockSize ∧
      Laid pool size (size / blockSize - headBlocks size blockSize) ∧
      Held pool (size / blockSize - headBlocks size blockSize) [] := by
  obtain ⟨hpos, htotal, haddr, hblock, hhead, havail, hbuf, hadd⟩ := init_some hinit
  have hcover := @head_blocks_cover size blockSize hpos
  have hdiv := Nat.div_le_self size blockSize
  have hlt := Nat.mul_le_mul_right blockSize hfit
  have hnum : pool.headBlockNum = headBlocks size blockSize := by
    have hlt32 : listHeadSize * (size / blockSize) + mpoolSize < 2 ^ 32 := by omega
    rw [hhead, u32_of_lt hlt32, head_num_blocks hpos hlt32]
  rw [hnum, u32_sub_of_le hfit (by omega)] at havail
  rw [hnum, u32_of_lt (by omega)] at hbuf
  obtain ⟨links', hadd', hring⟩ := @add_nodes_ring (initListHead links addr) addr (addr + mpoolSize) []
    pool.availBlockNum (init_ring links addr) (Nat.lt_add_of_pos_right (by decide)) (by simp)
  rw [hadd] at hadd'
  obtain rfl := Option.some.inj hadd'
  refine ⟨haddr, hblock, ⟨hblock ▸ hpos, ?_, ?_, ?_, hsize⟩, ?_⟩
  · simp only [Mpool.node, haddr, hblock, hbuf]
    rw [Nat.mul_comm] at hcover
    omega
  · rw [hbuf, haddr, hblock, Nat.sub_mul, htotal]
    omega
  · rw [hblock]
    exact Nat.sub_le _ _
  · refine ⟨(List.range (size / blockSize - headBlocks size blockSize)).reverse, [], rfl, ?_, ?_, ?_⟩
    · rw [List.map_reverse]
      rw [List.append_nil, havail] at hring
      subst haddr
      exact hring
    · rw [havail, List.length_reverse, List.length_range]
    · simp

/-- Whatever is allocated and freed, in whatever order: the outstanding blocks are apart
from one another, inside the region and behind the nodes, and the counter is right. -/
theorem blocks_apart (links : Links Nat) (addr size blockSize : Nat) (pool : Mpool)
    (hsize : size < 2 ^ 32) (hinit : rnsMpoolInit links addr size blockSize = some pool)
    (hfit : headBlocks size blockSize < size / blockSize) (ops : List Op) :
    ∃ pool' blocks, run pool [] ops = some (pool', blocks) ∧
      blocks.Nodup ∧
      blocks.Pairwise (fun a b => a + blockSize ≤ b ∨ b + blockSize ≤ a) ∧
      (∀ block ∈ blocks, addr + mpoolSize + size / blockSize * listHeadSize ≤ block ∧
        block + blockSize ≤ addr + size) ∧
      ∃ free, Ring pool'.links pool'.addr free ∧ pool'.availBlockNum = free.length := by
  obtain ⟨rfl, rfl, hlaid, hheld⟩ := init_held hsize hinit hfit.le
  obtain ⟨links', count, blocks, hrun, hheld'⟩ := run_held hlaid hheld ops
  obtain ⟨free, used, rfl, hinv⟩ := hheld'.inv
  have hlaid' : Laid { pool with links := links', availBlockNum := count } size
      (size / pool.blockSize - headBlocks size pool.blockSize) :=
    ⟨hlaid.pos, hlaid.behind, hlaid.top, hlaid.few, hlaid.small⟩
  have hused : ∀ i ∈ used, i < size / pool.blockSize - headBlocks size pool.blockSize :=
    fun i hi => inv_bounds hinv i (by simp [hi])
  have happart : (used.map (Mpool.block { pool with links := links', availBlockNum := count })).Pairwise
      (fun a b => a + pool.blockSize ≤ b ∨ b + pool.blockSize ≤ a) := by
    rw [List.pairwise_map]
    refine (List.nodup_append.mp (inv_nodup hinv)).2.1.imp_of_mem fun hi hj hne => ?_
    exact block_disjoint hlaid' (hused _ hi) (hused _ hj) hne
  refine ⟨_, _, hrun, ?_, happart, ?_, _, hinv.ring, ?_⟩
  · refine happart.imp fun h he => ?_
    have hpos := hlaid.pos
    subst he
    omega
  · intro block hm
    obtain ⟨i, hi, rfl⟩ := List.mem_map.mp hm
    exact block_inside hlaid' (hused i hi)
  · simpa using hinv.count

/-- A region of eight blocks, three of them for the header. -/
theorem blocks_apart_eight : ∃ pool, rnsMpoolInit .free 512 512 64 = some pool ∧
    ∃ pool' blocks, run pool [] [.alloc, .alloc, .free 960, .alloc] = some (pool', blocks) ∧
      blocks.Nodup ∧
      blocks.Pairwise (fun a b => a + 64 ≤ b ∨ b + 64 ≤ a) ∧
      (∀ block ∈ blocks, 512 + mpoolSize + 512 / 64 * listHeadSize ≤ block ∧ block + 64 ≤ 512 + 512) ∧
      ∃ free, Ring pool'.links pool'.addr free ∧ pool'.availBlockNum = free.length := by
  have hsome : (rnsMpoolInit .free 512 512 64).isSome = true := by decide
  obtain ⟨pool, hinit⟩ := Option.isSome_iff_exists.mp hsome
  exact ⟨pool, hinit, blocks_apart .free 512 512 64 pool (by decide) hinit (by decide) _⟩

/-- Whatever is allocated and freed: unless one block is free, the next allocation gives NULL if and
only if none is. -/
theorem alloc_null_iff (links : Links Nat) (addr size blockSize : Nat) (pool : Mpool)
    (hsize : size < 2 ^ 32) (hinit : rnsMpoolInit links addr size blockSize = some pool)
    (hfit : headBlocks size blockSize ≤ size / blockSize) (ops : List Op) :
    ∃ pool' blocks, run pool [] ops = some (pool', blocks) ∧
      (((∃ pool'', rnsMpoolAlloc pool' = some (pool'', none)) ↔
          blocks.length = size / blockSize - headBlocks size blockSize) ↔
        blocks.length + 1 ≠ size / blockSize - headBlocks size blockSize) := by
  obtain ⟨rfl, rfl, hlaid, hheld⟩ := init_held hsize hinit hfit
  obtain ⟨links', count, blocks, hrun, hheld'⟩ := run_held hlaid hheld ops
  obtain ⟨free, used, rfl, hinv⟩ := hheld'.inv
  have hlaid' : Laid { pool with links := links', availBlockNum := count } size
      (size / pool.blockSize - headBlocks size pool.blockSize) :=
    ⟨hlaid.pos, hlaid.behind, hlaid.top, hlaid.few, hlaid.small⟩
  have hfew := inv_few hinv
  refine ⟨_, _, hrun, ?_⟩
  rw [alloc_null hlaid' hinv, List.length_map]
  omega

/-- Eight blocks, three of them for the header and two outstanding. -/
theorem alloc_null_eight : ∃ pool, rnsMpoolInit .free 512 512 64 = some pool ∧
    ∃ pool' blocks, run pool [] [.alloc, .alloc] = some (pool', blocks) ∧
      (((∃ pool'', rnsMpoolAlloc pool' = some (pool'', none)) ↔
          blocks.length = 512 / 64 - headBlocks 512 64) ↔
        blocks.length + 1 ≠ 512 / 64 - headBlocks 512 64) := by
  have hsome : (rnsMpoolInit .free 512 512 64).isSome = true := by decide
  obtain ⟨pool, hinit⟩ := Option.isSome_iff_exists.mp hsome
  exact ⟨pool, hinit, alloc_null_iff .free 512 512 64 pool (by decide) hinit (by decide) _⟩

/-- Three blocks, two of them for the header: the third one is free and is not handed out. -/
theorem alloc_null_early : ¬ ∀ (links : Links Nat) (addr size blockSize : Nat) (pool : Mpool),
    size < 2 ^ 32 → rnsMpoolInit links addr size blockSize = some pool →
      headBlocks size blockSize ≤ size / blockSize → ∀ ops : List Op,
      ∃ pool' blocks, run pool [] ops = some (pool', blocks) ∧
        ((∃ pool'', rnsMpoolAlloc pool' = some (pool'', none)) ↔
          blocks.length = size / blockSize - headBlocks size blockSize) := by
  intro hall
  have hsome : (rnsMpoolInit .free 512 192 64).isSome = true := by decide
  obtain ⟨pool, hinit⟩ := Option.isSome_iff_exists.mp hsome
  obtain ⟨pool', blocks, hrun, hiff⟩ := hall .free 512 192 64 pool (by decide) hinit (by decide) []
  obtain ⟨rfl, rfl⟩ := Prod.mk.inj (Option.some.inj hrun)
  have hnull : ((rnsMpoolInit .free 512 192 64).bind rnsMpoolAlloc).map Prod.snd = some none := by decide
  rw [hinit, Option.bind_some, Option.map_eq_some_iff] at hnull
  obtain ⟨⟨pool'', found⟩, halloc, rfl⟩ := hnull
  exact absurd (hiff.mp ⟨pool'', halloc⟩) (by decide)

/-- The counts of a pool are right, and its header has room for the node of each block. -/
structure Sized (pool : Mpool) (size : Nat) : Prop where
  pos : 0 < pool.blockSize
  few : pool.headBlockNum ≤ size / pool.blockSize
  count : pool.availBlockNum + pool.headBlockNum = size / pool.blockSize
  room : mpoolSize + listHeadSize * (size / pool.blockSize) ≤ pool.headBlockNum * pool.blockSize

/-- For every region that is not turned down: its pool is right if and only if the region has room
for the header with the node of each block. -/
theorem init_sized_iff (links : Links Nat) (addr size blockSize : Nat) (pool : Mpool)
    (hsize : size < 2 ^ 32) (hinit : rnsMpoolInit links addr size blockSize = some pool) :
    Sized pool size ↔ mpoolSize + listHeadSize * (size / blockSize) ≤ size := by
  obtain ⟨hpos, htotal, -, rfl, hhead, havail, -, -⟩ := init_some hinit
  constructor
  · intro h
    have hle := Nat.mul_le_mul_right pool.blockSize h.few
    exact h.room.trans (hle.trans htotal.le)
  · intro hfit
    have hdiv := Nat.div_le_self size pool.blockSize
    rw [u32_of_lt (by omega)] at hhead
    obtain ⟨hcover, hleast⟩ := @head_num_covers _ pool.blockSize hpos
      (show listHeadSize * (size / pool.blockSize) + mpoolSize < 2 ^ 32 by omega)
    rw [← hhead] at hcover hleast
    have hfew : pool.headBlockNum ≤ size / pool.blockSize := by
      have hlt : pool.headBlockNum * pool.blockSize < (size / pool.blockSize + 1) * pool.blockSize := by
        rw [Nat.succ_mul]
        omega
      exact Nat.le_of_lt_succ (Nat.lt_of_mul_lt_mul_right hlt)
    refine ⟨hpos, hfew, ?_, by omega⟩
    rw [havail, u32_sub_of_le hfew (by omega)]
    omega

/-- A region of eight blocks. -/
theorem init_sized_eight : ∃ pool, rnsMpoolInit .free 512 512 64 = some pool ∧
    (Sized pool 512 ↔ mpoolSize + listHeadSize * (512 / 64) ≤ 512) := by
  have hsome : (rnsMpoolInit .free 512 512 64).isSome = true := by decide
  obtain ⟨pool, hinit⟩ := Option.isSome_iff_exists.mp hsome
  exact ⟨pool, hinit, init_sized_iff .free 512 512 64 pool (by decide) hinit⟩

/-- The size of the header wraps around, so that blocks begin among the nodes. -/
theorem init_sized_wraps : ¬ ∀ (links : Links Nat) (addr size blockSize : Nat) (pool : Mpool),
    size < 2 ^ 32 → rnsMpoolInit links addr size blockSize = some pool → Sized pool size := by
  intro hall
  obtain ⟨links, hadd, -⟩ := @add_nodes_ring (initListHead .free 512) 512 (512 + mpoolSize) [] 267242406
    (init_ring .free 512) (by decide) (by simp)
  have hhead : headNum (u32 (listHeadSize * (4294967295 / 15) + mpoolSize)) 15 = 19088747 := by decide
  have havail : u32Sub (4294967295 / 15) 19088747 = 267242406 := by decide
  have hinit : rnsMpoolInit .free 512 4294967295 15 = some ⟨512, links, 15, 267242406, 19088747, 286331717⟩ := by
    rw [headNum] at hhead
    simp only [rnsMpoolInit, hhead, havail, hadd]
    rfl
  have hroom : mpoolSize + listHeadSize * (4294967295 / 15) ≤ 19088747 * 15 :=
    (hall _ _ _ _ _ (by decide) hinit).room
  exact absurd hroom (by decide)

end Yclib.Pool

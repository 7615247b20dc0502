import MySQL.Lib.Links
import MySQL.Lib.Memory
import MySQL.Sql.QueryCache.Bins

/-!
# Results in the query cache

The result of a query is a ring of blocks.  A chunk of data fills the last block, which may first
get the free memory behind it, and goes on in a chain of new blocks.
-/

namespace MySQL.Sql.QueryCache

open Lib List Function

/-- `ALIGN_SIZE`. -/
def alignSize (n : ℕ) : ℕ := (n + 7) / 8 * 8

/-- The headers of a block and of a result. -/
def headersLen : ℕ := 64

/-- The blocks of the cache by their addresses. -/
structure Heap where
  length : ℕ → ℕ
  used : ℕ → ℕ
  next : ℕ → ℕ
  prev : ℕ → ℕ
  bytes : ℕ → ℕ → UInt8
  free : ℕ → Bool

abbrev FreeBins (t : BinTable) := { bins : BinTable.Bins // t.freeMemory.Reachable bins }

/-- The memory that a call meets: the free block behind the last block, the bins at each allocation,
and the least sizes of new blocks (`get_min_first_result_data_size`, `min_result_data_size`).  Old
queries may be freed between two allocations, and the one after these bins fails. -/
structure Space (t : BinTable) where
  neighbour : Option ℕ
  bins : List (FreeBins t)
  minFirst : ℕ
  minResult : ℕ

/-- `QUERY_CACHE_PACK_LIMIT`, the only limit that `join_results` is called with. -/
def queryCachePackLimit : ℕ := 512 * 1024

namespace Heap

variable {t : BinTable} (h : Heap)

/-- The used data of a block. -/
def data (a : ℕ) : List UInt8 := slice (h.bytes a) headersLen (h.used a - headersLen)

/-- A free block is taken and, if it is long enough, split. -/
def takeBlock (a length : ℕ) : Heap :=
  { h with
    free := update h.free a false
    length := update h.length a length }

/-- `allocate_block` with the bins that it meets, and the address of the block.  The bins are those
of the heap, whose blocks are free. -/
def allocateBlock (bins : FreeBins t) (len : ℕ) (notLess : Bool) (min : ℕ) : Option (Heap × ℕ) :=
  (t.getFreeBlock bins len notLess min).1.bind fun b =>
    if h.free b.addr then
      some (h.takeBlock b.addr
        (if alignSize len + minAllocationUnit ≤ b.length then alignSize len else b.length), b.addr)
    else none

def doubleLinkedListJoin (headTail tailHead : ℕ) : Heap :=
  let headHead := h.next headTail
  let tailTail := h.prev tailHead
  { h with
    prev := update (update h.prev headHead tailTail) tailHead headTail
    next := update (update h.next headTail tailHead) tailTail headHead }

/-- A new block of a result, which is a ring of its own. -/
def initBlock (a used : ℕ) : Heap :=
  { h with
    used := update h.used a used
    next := update h.next a a
    prev := update h.prev a a }

/-- `allocate_data_chain` with the first and the last block so far. -/
def allocateDataChain (minSize minResult : ℕ) :
    List (FreeBins t) → ℕ → Option (ℕ × ℕ) → Heap → Option (Heap × ℕ)
  | [], _, _, _ => none
  | bins :: rest, dataLen, chain, h => do
    let len := dataLen + headersLen
    let (h, a) ← h.allocateBlock bins (max minSize (alignSize len)) (minResult = 0)
      (headersLen + minResult)
    let h := h.initBlock a (min len (h.length a))
    let (first, h) :=
      match chain with
      | some (first, last) => (first, h.doubleLinkedListJoin last a)
      | none => (a, h)
    if len ≤ h.length a then some (h, first)
    else allocateDataChain minSize minResult rest (len - h.length a) (some (first, a)) h

/-- `memcpy` into a block. -/
def copy (a offset : ℕ) (data : List UInt8) : Heap :=
  { h with bytes := update h.bytes a (write (h.bytes a) offset data) }

/-- The loop of `write_result_data`. -/
def fill (first : ℕ) : ℕ → ℕ → List UInt8 → Heap → Heap
  | 0, _, _, h => h
  | n + 1, block, rest, h =>
    let length := h.used block - headersLen
    let h := h.copy block headersLen (rest.take length)
    if h.next block = first then h else fill first n (h.next block) (rest.drop length) h

def writeResultData (space : Space t) (minSize : ℕ) (data : List UInt8) : Option (Heap × ℕ) := do
  let (h, first) ← h.allocateDataChain minSize space.minResult space.bins data.length none
  some (h.fill first space.bins.length first data, first)

/-- `append_next_free_block`. -/
def appendNextFreeBlock (a addSize : ℕ) (neighbour : Option ℕ) : Heap :=
  match neighbour with
  | none => h
  | some n =>
    let wanted := alignSize (h.length a + addSize)
    let length := h.length a + n
    { h with
      length := update h.length a
        (if wanted + minAllocationUnit < length then wanted else length) }

/-- Data is copied behind the used part of a block. -/
def store (a : ℕ) (data : List UInt8) : Heap :=
  { h.copy a (h.used a) data with used := update h.used a (h.used a + data.length) }

/-- `append_result_data` to a chain that begins at `first`. -/
def appendToChain (first : ℕ) (space : Space t) (data : List UInt8) : Option Heap :=
  let last := h.prev first
  let tail := data.length - (h.length last - h.used last)
  let h :=
    if h.length last - h.used last < data.length then
      h.appendNextFreeBlock last (max tail space.minResult) space.neighbour
    else h
  let room := h.length last - h.used last
  if room < data.length then
    (h.writeResultData space space.minResult (data.drop room)).map fun (h, new) =>
      (h.doubleLinkedListJoin last new).store last (data.take room)
  else some (h.store last (data.take room))

/-- `append_result_data`. -/
def appendResultData (current : Option ℕ) (space : Space t) (data : List UInt8) :
    Option (Heap × Option ℕ) :=
  match current with
  | none => (h.writeResultData space space.minFirst data).map fun (h, first) => (h, some first)
  | some first => (h.appendToChain first space data).map (·, some first)

/-- The calls for one query, each with its chunk. -/
def appendAll : List (List UInt8 × Space t) → Heap → Option ℕ → Option (Heap × Option ℕ)
  | [], h, current => some (h, current)
  | (data, space) :: calls, h, current =>
    (h.appendResultData current space data).bind fun (h, current) => appendAll calls h current

/-- The loop of `join_results` over the blocks of a result. -/
def joinLoop (first target : ℕ) : ℕ → ℕ → ℕ → Heap → Heap
  | 0, _, _, h => h
  | n + 1, block, writeTo, h =>
    let data := h.data block
    let next := h.next block
    let h := h.copy target writeTo data
    let h := { h with free := update h.free block true }
    if next = first then h else joinLoop first target n next (writeTo + data.length) h

/-- `join_results` for a result of the given length, with the bins that it meets. -/
def joinResults (joinLimit fuel first len : ℕ)
    (bins : FreeBins t) : Heap × ℕ :=
  let newLen := len + headersLen
  match (t.getFreeBlock bins (alignSize len + headersLen) true 0).1 with
  | some b =>
    if len ≤ joinLimit ∨ h.free b.addr = false then (h, first)
    else
      let h := (h.takeBlock b.addr (if alignSize newLen + minAllocationUnit < b.length then
        alignSize newLen else b.length)).initBlock b.addr newLen
      (h.joinLoop first b.addr fuel first headersLen, b.addr)
  | none => (h, first)

/-! ## Rings of blocks -/

/-- The blocks form a ring of blocks that are not free and hold their headers. -/
structure Chain (h : Heap) (first last : ℕ) (l : List ℕ) : Prop where
  head_eq : l.head? = some first
  last_eq : l.getLast? = some last
  links : Links h.next l
  next_last : h.next last = first
  prev_first : h.prev first = last
  nodup : l.Nodup
  taken : ∀ a ∈ l, h.free a = false
  headers_le : ∀ a ∈ l, headersLen ≤ h.used a
  used_le : ∀ a ∈ l, h.used a ≤ h.length a

/-- A block has the same data in two heaps. -/
structure Same (h h' : Heap) (a : ℕ) : Prop where
  length_eq : h'.length a = h.length a
  used_eq : h'.used a = h.used a
  bytes_eq : h'.bytes a = h.bytes a
  free_eq : h'.free a = h.free a

/-- What an operation with free blocks leaves alone, apart from the links of a ring `l`. -/
structure Frame (h h' : Heap) (l : List ℕ) : Prop where
  same : ∀ a, h.free a = false → Same h h' a
  next_eq : ∀ a, h.free a = false → a ∉ l → h'.next a = h.next a
  prev_eq : ∀ a, h.free a = false → a ∉ l → h'.prev a = h.prev a

variable {h} {h' h₁ h₂ : Heap} {a first last first₂ last₂ : ℕ} {l l₂ : List ℕ} {next : ℕ → ℕ}
  {chunk : List UInt8}

theorem ne_of_free {x : ℕ} (hx : h.free x = false) (ha : h.free a = true) : x ≠ a := by
  rintro rfl
  exact Bool.false_ne_true (hx.symm.trans ha)

theorem Same.data_eq (hsame : Same h h' a) : h'.data a = h.data a := by
  rw [data, data, hsame.used_eq, hsame.bytes_eq]

theorem Frame.trans (hframe : Frame h h₁ l) (hframe' : Frame h₁ h' l₂)
    (hl : ∀ a, h.free a = false → a ∈ l₂ → a ∈ l) : Frame h h' l := by
  have hfree (a : ℕ) (ha : h.free a = false) : h₁.free a = false := by
    rw [(hframe.same a ha).free_eq, ha]
  refine ⟨fun a ha => ?_, fun a ha hal => ?_, fun a ha hal => ?_⟩
  · have h₁ := hframe.same a ha
    have h₂ := hframe'.same a (hfree a ha)
    exact ⟨h₂.length_eq.trans h₁.length_eq, h₂.used_eq.trans h₁.used_eq,
      h₂.bytes_eq.trans h₁.bytes_eq, h₂.free_eq.trans h₁.free_eq⟩
  · exact (hframe'.next_eq a (hfree a ha) (mt (hl a ha) hal)).trans (hframe.next_eq a ha hal)
  · exact (hframe'.prev_eq a (hfree a ha) (mt (hl a ha) hal)).trans (hframe.prev_eq a ha hal)

section

variable (hchain : Chain h first last l)

include hchain

theorem Chain.first_mem : first ∈ l :=
  List.mem_of_mem_head? hchain.head_eq

theorem Chain.last_mem : last ∈ l :=
  List.mem_of_getLast? hchain.last_eq

theorem Chain.ne_last (ha : a ∈ l.dropLast) : a ≠ last := by
  have hnodup := hchain.nodup
  rw [← List.dropLast_append_getLast? last hchain.last_eq, nodup_append] at hnodup
  exact hnodup.2.2 a ha last (mem_singleton_self last)

/-- A ring that an operation leaves alone. -/
theorem Chain.of_frame (hframe : Frame h h' l₂)
    (hdisj : ∀ a ∈ l, a ∉ l₂) : Chain h' first last l where
  __ := hchain
  links := hchain.links.congr fun a ha =>
    have ha := dropLast_subset l ha
    hframe.next_eq a (hchain.taken a ha) (hdisj a ha)
  next_last := by
    have hlast := hchain.last_mem
    rw [hframe.next_eq last (hchain.taken last hlast) (hdisj last hlast), hchain.next_last]
  prev_first := by
    have hfirst := hchain.first_mem
    rw [hframe.prev_eq first (hchain.taken first hfirst) (hdisj first hfirst), hchain.prev_first]
  taken a ha := by rw [(hframe.same a (hchain.taken a ha)).free_eq, hchain.taken a ha]
  headers_le a ha := by
    rw [(hframe.same a (hchain.taken a ha)).used_eq]
    exact hchain.headers_le a ha
  used_le a ha := by
    have hsame := hframe.same a (hchain.taken a ha)
    rw [hsame.used_eq, hsame.length_eq]
    exact hchain.used_le a ha

theorem Chain.doubleLinkedListJoin_eq (hchain₂ : Chain h first₂ last₂ l₂) :
    h.doubleLinkedListJoin last first₂ =
      { h with
        prev := update (update h.prev first last₂) first₂ last
        next := update (update h.next last first₂) last₂ first } := by
  rw [doubleLinkedListJoin, hchain.next_last, hchain₂.prev_first]

theorem Chain.join (hchain₂ : Chain h first₂ last₂ l₂) (hdisj : ∀ a ∈ l, a ∉ l₂) :
    Chain (h.doubleLinkedListJoin last first₂) first last₂ (l ++ l₂) := by
  rw [hchain.doubleLinkedListJoin_eq hchain₂]
  have hne : last ≠ last₂ := fun heq => hdisj last hchain.last_mem (heq ▸ hchain₂.last_mem)
  refine ⟨?_, ?_, ?_, ?_, ?_, ?_, ?_, ?_, ?_⟩
  · rw [List.head?_append, hchain.head_eq]
    rfl
  · rw [List.getLast?_append, hchain₂.last_eq]
    rfl
  · refine isChain_append.mpr ⟨?_, ?_, ?_⟩
    · refine hchain.links.congr fun a ha => ?_
      have hal := dropLast_subset l ha
      have ha₂ : a ≠ last₂ := fun heq => hdisj a hal (heq ▸ hchain₂.last_mem)
      exact (update_of_ne ha₂ ..).trans (update_of_ne (hchain.ne_last ha) ..)
    · refine hchain₂.links.congr fun a ha => ?_
      have hal := dropLast_subset l₂ ha
      have ha₁ : a ≠ last := fun heq => hdisj a (heq ▸ hchain.last_mem) hal
      exact (update_of_ne (hchain₂.ne_last ha) ..).trans (update_of_ne ha₁ ..)
    · intro x hx y hy
      obtain rfl := Option.some.inj (hchain.last_eq.symm.trans hx)
      obtain rfl := Option.some.inj (hchain₂.head_eq.symm.trans hy)
      exact (update_of_ne hne ..).trans (update_self ..)
  · exact update_self ..
  · have hne' : first ≠ first₂ := fun heq =>
      hdisj first hchain.first_mem (heq ▸ hchain₂.first_mem)
    exact (update_of_ne hne' ..).trans (update_self ..)
  · exact nodup_append.mpr ⟨hchain.nodup, hchain₂.nodup,
      fun a ha b hb heq => hdisj a ha (heq ▸ hb)⟩
  · exact fun a ha => (mem_append.mp ha).elim (hchain.taken a) (hchain₂.taken a)
  · exact fun a ha => (mem_append.mp ha).elim (hchain.headers_le a) (hchain₂.headers_le a)
  · exact fun a ha => (mem_append.mp ha).elim (hchain.used_le a) (hchain₂.used_le a)

end

/-! ## New blocks -/

theorem le_alignSize (n : ℕ) : n ≤ alignSize n := by
  unfold alignSize
  omega

/-- A block that was free is a ring of its own. -/
theorem take_spec {length used : ℕ} (hfree : h.free a = true) (hle : headersLen ≤ used)
    (hused : used ≤ length) :
    Chain ((h.takeBlock a length).initBlock a used) a a [a] ∧
      Frame h ((h.takeBlock a length).initBlock a used) [] := by
  refine ⟨⟨rfl, rfl, .singleton _, ?_, ?_, nodup_singleton _, ?_, ?_, ?_⟩, ⟨?_, ?_, ?_⟩⟩
  all_goals simp only [mem_singleton, forall_eq, takeBlock, initBlock, update_self]
  · exact hle
  · exact hused
  · intro x hx
    have hne := ne_of_free hx hfree
    exact ⟨update_of_ne hne .., update_of_ne hne .., rfl, update_of_ne hne ..⟩
  · exact fun x hx _ => update_of_ne (ne_of_free hx hfree) ..
  · exact fun x hx _ => update_of_ne (ne_of_free hx hfree) ..

theorem allocate_spec {bins : FreeBins t}
    {len minSize least : ℕ} {notLess : Bool} (hlen : headersLen ≤ len)
    (heq : h.allocateBlock bins (max minSize (alignSize len)) notLess least = some (h₁, a)) :
    let h' := h₁.initBlock a (min len (h₁.length a))
    h.free a = true ∧ Chain h' a a [a] ∧ Frame h h' [] ∧ h'.used a = min len (h'.length a) := by
  obtain ⟨b, hfound, heq⟩ := Option.bind_eq_some_iff.mp heq
  obtain ⟨i, hb⟩ := BinTable.mem_of_getFreeBlock hfound
  have hunit := ((BinTable.sorted_of_reachable bins.2).bin_eq i b hb).1
  split at heq
  next hfree =>
    obtain ⟨rfl, rfl⟩ := Prod.mk.inj (Option.some.inj heq)
    have hlength : headersLen ≤
        (if alignSize (max minSize (alignSize len)) + minAllocationUnit ≤ b.length then
          alignSize (max minSize (alignSize len)) else b.length) := by
      have hle := le_alignSize (max minSize (alignSize len))
      have hle' := le_alignSize len
      unfold headersLen minAllocationUnit at *
      split <;> omega
    have hself (length : ℕ) : (h.takeBlock b.addr length).length b.addr = length :=
      update_self ..
    obtain ⟨hchain, hframe⟩ := take_spec hfree (le_min hlen hlength) (min_le_right _ _)
    rw [hself]
    refine ⟨hfree, hchain, hframe, ?_⟩
    exact (update_self ..).trans (congrArg _ (hself _).symm)
  · exact nomatch heq

theorem Chain.frame_join (hchain : Chain h first last l) (hchain₂ : Chain h first₂ last₂ l₂) :
    Frame h (h.doubleLinkedListJoin last first₂) (l ++ l₂) := by
  rw [hchain.doubleLinkedListJoin_eq hchain₂]
  refine ⟨fun a _ => ⟨rfl, rfl, rfl, rfl⟩, fun a _ ha => ?_, fun a _ ha => ?_⟩
  · have hlast : a ≠ last := fun heq => ha (mem_append_left _ (heq ▸ hchain.last_mem))
    have hlast₂ : a ≠ last₂ := fun heq => ha (mem_append_right _ (heq ▸ hchain₂.last_mem))
    dsimp only
    rw [update_of_ne hlast₂, update_of_ne hlast]
  · have hfirst : a ≠ first := fun heq => ha (mem_append_left _ (heq ▸ hchain.first_mem))
    have hfirst₂ : a ≠ first₂ := fun heq => ha (mem_append_right _ (heq ▸ hchain₂.first_mem))
    dsimp only
    rw [update_of_ne hfirst₂, update_of_ne hfirst]

/-- The chain so far, which is empty at first. -/
def ChainSoFar (h : Heap) (chain : Option (ℕ × ℕ)) (l : List ℕ) : Prop :=
  match chain with
  | none => l = []
  | some (first, last) => Chain h first last l

/-- The new block comes behind the chain so far. -/
theorem attach_spec {chain : Option (ℕ × ℕ)} (hchain : ChainSoFar h chain l)
    (hframe : Frame h h₁ []) (hsingle : Chain h₁ a a [a]) (hfree : h.free a = true) :
    let attached :=
      match chain with
      | some (first, last) => (first, h₁.doubleLinkedListJoin last a)
      | none => (a, h₁)
    Chain attached.2 attached.1 a (l ++ [a]) ∧ Frame h attached.2 l ∧
      attached.2.used = h₁.used ∧ attached.2.length = h₁.length := by
  cases chain with
  | none =>
    subst hchain
    exact ⟨hsingle, hframe, rfl, rfl⟩
  | some chain =>
    have hchain₁ : Chain h₁ chain.1 chain.2 l :=
      Chain.of_frame hchain hframe fun _ _ => not_mem_nil
    refine ⟨hchain₁.join hsingle fun x hx hxa => ?_, ?_, rfl, rfl⟩
    · exact ne_of_free (hchain.taken x hx) hfree (mem_singleton.mp hxa)
    · refine Frame.trans ⟨hframe.same, fun x hx _ => ?_, fun x hx _ => ?_⟩
        (hchain₁.frame_join hsingle) fun x hx hmem => ?_
      · exact hframe.next_eq x hx not_mem_nil
      · exact hframe.prev_eq x hx not_mem_nil
      · exact (mem_append.mp hmem).resolve_right fun hxa =>
          ne_of_free hx hfree (mem_singleton.mp hxa)

theorem allocateDataChain_spec {minSize minResult dataLen : ℕ}
    {blocks : List (FreeBins t)}
    {chain : Option (ℕ × ℕ)} (hchain : ChainSoFar h chain l)
    (heq : allocateDataChain minSize minResult blocks dataLen chain h = some (h', first)) :
    ∃ last new, Chain h' first last (l ++ new) ∧ new.length ≤ blocks.length ∧
      (∀ a ∈ new, h.free a = true) ∧ Frame h h' l ∧
      (new.map (h'.used · - headersLen)).sum = dataLen := by
  induction blocks generalizing h l chain dataLen with
  | nil => exact nomatch heq
  | cons bins blocks ih =>
    obtain ⟨⟨h₀, b⟩, hallocate, heq⟩ := Option.bind_eq_some_iff.mp heq
    obtain ⟨hfree, hsingle, hframe, hused⟩ := allocate_spec (Nat.le_add_left ..) hallocate
    obtain ⟨hattach, hframe', hused', hlength'⟩ := attach_spec hchain hframe hsingle hfree
    dsimp only at heq hattach hframe' hused' hlength'
    generalize (match chain with
      | some (first, last) => (first,
        (h₀.initBlock b (min (dataLen + headersLen) (h₀.length b))).doubleLinkedListJoin
          last b)
      | none => (b,
        h₀.initBlock b (min (dataLen + headersLen) (h₀.length b)))) = attached at *
    rw [← hused', ← hlength'] at hused
    split at heq
    · next hle =>
      obtain ⟨rfl, rfl⟩ := Prod.mk.inj (Option.some.inj heq)
      refine ⟨b, [b], hattach, Nat.succ_le_succ (Nat.zero_le _), ?_, hframe', ?_⟩
      · simpa using hfree
      · rw [map_singleton, sum_singleton, hused, min_eq_left hle, Nat.add_sub_cancel]
    · next hlt =>
      have hsofar : ChainSoFar attached.2 (some (attached.1, b)) (l ++ [b]) := hattach
      obtain ⟨last, new, hchain', hcard, hnew, hframe'', hsum⟩ := ih hsofar heq
      have hb : attached.2.free b = false := hattach.taken _ (by simp)
      refine ⟨last, b :: new, ?_, Nat.succ_le_succ hcard, ?_, ?_, ?_⟩
      · rwa [append_assoc] at hchain'
      · refine forall_mem_cons.mpr ⟨hfree, fun a ha => ?_⟩
        by_contra hfalse
        have hsame := (hframe'.same a (Bool.eq_false_of_not_eq_true hfalse)).free_eq
        exact hfalse (hsame.symm.trans (hnew a ha))
      · refine hframe'.trans hframe'' fun a ha hmem => ?_
        exact (mem_append.mp hmem).resolve_right fun hab =>
          ne_of_free ha hfree (mem_singleton.mp hab)
      · have hsame := (hframe''.same _ hb).used_eq
        have hle : headersLen ≤ attached.2.used b := hattach.headers_le _ (by simp)
        rw [map_cons, sum_cons]
        omega

/-- A loop along `next` from a block until the first one comes again. -/
inductive Walk (next : ℕ → ℕ) (first : ℕ) : ℕ → List ℕ → Prop
  | last {a : ℕ} (ha : next a = first) : Walk next first a [a]
  | step {a : ℕ} {l : List ℕ} (hne : next a ≠ first) (hal : a ∉ l)
      (hrest : Walk next first (next a) l) : Walk next first a (a :: l)

theorem walk_of_links (hlast : (a :: l).getLast? = some last) (hlinks : Links next (a :: l))
    (hnext : next last = first) (hfirst : first ∉ l) (hnodup : (a :: l).Nodup) :
    Walk next first a (a :: l) := by
  induction l generalizing a with
  | nil =>
    obtain rfl := Option.some.inj hlast
    exact .last hnext
  | cons b l ih =>
    obtain ⟨rfl, hlinks⟩ := links_cons_cons.mp hlinks
    obtain ⟨hal, hnodup⟩ := nodup_cons.mp hnodup
    rw [mem_cons, not_or] at hfirst
    exact .step (Ne.symm hfirst.1) hal (ih hlast hlinks hfirst.2 hnodup)

theorem Chain.walk (hchain : Chain h first last l) : Walk h.next first first l := by
  obtain ⟨rest, rfl⟩ := List.head?_eq_some_iff.mp hchain.head_eq
  exact walk_of_links hchain.last_eq hchain.links hchain.next_last
    (nodup_cons.mp hchain.nodup).1 hchain.nodup

theorem fill_spec {block n : ℕ} {rest : List UInt8} (hwalk : Walk next first block l)
    (hnext : h.next = next) (hn : l.length ≤ n)
    (hrest : (l.map (h.used · - headersLen)).sum = rest.length) :
    ∃ bytes, fill first n block rest h = { h with bytes := bytes } ∧
      (∀ a ∉ l, bytes a = h.bytes a) ∧
      l.flatMap (Heap.data { h with bytes := bytes }) = rest := by
  induction hwalk generalizing h n rest with
  | @last a ha =>
    obtain ⟨n, rfl⟩ := Nat.exists_eq_add_one_of_ne_zero (Nat.ne_zero_of_lt hn)
    rw [map_singleton, sum_singleton] at hrest
    rw [fill, hrest, take_length]
    refine ⟨_, if_pos ((congrFun hnext a).trans ha), fun x hx => ?_, ?_⟩
    · exact update_of_ne (fun heq => hx (mem_singleton.mpr heq)) ..
    · rw [flatMap_singleton, data]
      dsimp only
      rw [update_self, (stands_write _ _ _).slice_eq hrest]
  | @step a l hne hal _ ih =>
    obtain ⟨n, rfl⟩ := Nat.exists_eq_add_one_of_ne_zero (Nat.ne_zero_of_lt hn)
    rw [map_cons, sum_cons] at hrest
    generalize hk : h.used a - headersLen = k at hrest
    have htake : (rest.take k).length = k := by
      rw [length_take]
      omega
    have hsum : (l.map (h.used · - headersLen)).sum = (rest.drop k).length := by
      rw [length_drop]
      omega
    obtain ⟨bytes, hfill, hother, hrest'⟩ := ih (h := h.copy a headersLen (rest.take k))
      hnext (Nat.le_of_succ_le_succ hn) hsum
    have hbytes : (h.copy a headersLen (rest.take k)).bytes a =
        write (h.bytes a) headersLen (rest.take k) := update_self ..
    have hgo : (h.copy a headersLen (rest.take k)).next a = next a := congrFun hnext a
    refine ⟨bytes, ?_, fun x hx => ?_, ?_⟩
    · rw [fill, hk, hgo, if_neg hne, hfill]
      rfl
    · rw [hother x fun hmem => hx (mem_cons_of_mem a hmem)]
      exact update_of_ne (fun heq => hx (mem_cons.mpr (.inl heq))) ..
    · rw [flatMap_cons, data]
      dsimp only
      rw [hk, hother a hal, hbytes, (stands_write _ _ _).slice_eq htake.symm]
      exact (congrArg _ hrest').trans (take_append_drop ..)

theorem writeResultData_spec {space : Space t} {minSize : ℕ}
    (heq : h.writeResultData space minSize chunk = some (h', first)) :
    ∃ last new, Chain h' first last new ∧ (∀ a ∈ new, h.free a = true) ∧ Frame h h' [] ∧
      new.flatMap h'.data = chunk := by
  obtain ⟨⟨h₁, first'⟩, hallocate, heq⟩ := Option.bind_eq_some_iff.mp heq
  obtain ⟨rfl, rfl⟩ := Prod.mk.inj (Option.some.inj heq)
  obtain ⟨last, new, hchain, hcard, hfree, hframe, hsum⟩ :=
    allocateDataChain_spec (show ChainSoFar h none [] from rfl) hallocate
  obtain ⟨bytes, hfill, hother, hdata⟩ := fill_spec hchain.walk rfl hcard hsum
  rw [hfill]
  refine ⟨last, new, ?_, hfree, ?_, hdata⟩
  · exact { hchain with }
  · refine ⟨fun a ha => ?_, hframe.next_eq, hframe.prev_eq⟩
    have hsame := hframe.same a ha
    refine ⟨hsame.length_eq, hsame.used_eq, ?_, hsame.free_eq⟩
    have hnew : a ∉ new := fun hmem => ne_of_free ha (hfree a hmem) rfl
    exact (hother a hnew).trans hsame.bytes_eq

/-! ## Appending -/

section

variable (hchain : Chain h first last l)

include hchain

/-- Data behind the used part of a block. -/
theorem Chain.store {x : ℕ} (hx : x ∈ l) (hroom : chunk.length ≤ h.length x - h.used x) :
    let h' := h.store x chunk
    Chain h' first last l ∧ h'.data x = h.data x ++ chunk ∧
      ∀ a, a ≠ x → h'.data a = h.data a := by
  have hle := hchain.headers_le x hx
  have hused := hchain.used_le x hx
  intro h'
  have hself : h'.used x = h.used x + chunk.length := update_self ..
  have hother {a : ℕ} (ha : a ≠ x) : h'.used a = h.used a := update_of_ne ha ..
  refine ⟨{ hchain with headers_le := fun a ha => ?_, used_le := fun a ha => ?_ }, ?_,
    fun a ha => ?_⟩
  · by_cases hax : a = x
    · rw [hax]
      omega
    · rw [hother hax]
      exact hchain.headers_le a ha
  · change h'.used a ≤ h.length a
    by_cases hax : a = x
    · rw [hax]
      omega
    · rw [hother hax]
      exact hchain.used_le a ha
  · have hbytes : h'.bytes x = write (h.bytes x) (h.used x) chunk := update_self ..
    have hsplit : h.used x + chunk.length - headersLen =
        h.used x - headersLen + chunk.length := by omega
    have hend : headersLen + (h.used x - headersLen) = h.used x := by omega
    rw [data, hself, hbytes, hsplit, slice_add, hend, (stands_write _ _ _).slice_eq rfl]
    congr 1
    exact slice_congr fun q _ hq => write_of_lt (by omega)
  · have hbytes : h'.bytes a = h.bytes a := update_of_ne ha ..
    rw [data, data, hother ha, hbytes]

theorem Chain.flatMap_copy {f f' : ℕ → List UInt8} (hlast : f' last = f last ++ chunk)
    (hother : ∀ a, a ≠ last → f' a = f a) : l.flatMap f' = l.flatMap f ++ chunk := by
  rw [← List.dropLast_append_getLast? last hchain.last_eq, flatMap_append,
    flatMap_append, flatMap_singleton, flatMap_singleton, append_assoc]
  congr 1
  exact flatMap_congr fun a ha => hother a (hchain.ne_last ha)

/-- Growing the last block changes no data. -/
theorem Chain.appendNextFreeBlock (addSize : ℕ) (neighbour : Option ℕ) :
    Chain (h.appendNextFreeBlock last addSize neighbour) first last l ∧
      (h.appendNextFreeBlock last addSize neighbour).data = h.data := by
  cases neighbour with
  | none => exact ⟨hchain, rfl⟩
  | some n =>
    refine ⟨{ hchain with used_le := fun a ha => ?_ }, rfl⟩
    refine (hchain.used_le a ha).trans ?_
    by_cases hal : a = last
    · have halign := le_alignSize (h.length last + addSize)
      simp only [Heap.appendNextFreeBlock, hal, update_self]
      split <;> omega
    · exact (update_of_ne hal ..).ge

theorem appendToChain_spec {space : Space t} (heq : h.appendToChain first space chunk = some h') :
    ∃ last' l', Chain h' first last' l' ∧ l'.flatMap h'.data = l.flatMap h.data ++ chunk := by
  unfold appendToChain at heq
  rw [hchain.prev_first] at heq
  dsimp only at heq
  generalize hgrown : (if h.length last - h.used last < chunk.length then
    h.appendNextFreeBlock last (max (chunk.length - (h.length last - h.used last)) space.minResult)
      space.neighbour else h) = h₁ at heq
  have hchain₁ : Chain h₁ first last l ∧ h₁.data = h.data := by
    rw [← hgrown]
    split
    · exact hchain.appendNextFreeBlock _ _
    · exact ⟨hchain, rfl⟩
  obtain ⟨hchain₁, hdata₁⟩ := hchain₁
  have hlen : (chunk.take (h₁.length last - h₁.used last)).length ≤
      h₁.length last - h₁.used last := length_take_le _ _
  rw [← hdata₁]
  split at heq
  · obtain ⟨⟨h₂, new⟩, hnew, rfl⟩ := Option.map_eq_some_iff.mp heq
    obtain ⟨last₂, l₂, hchain₂, hfree, hframe, hdata₂⟩ := writeResultData_spec hnew
    have hchain₃ := hchain₁.of_frame hframe fun _ _ => not_mem_nil
    have hdisj : ∀ a ∈ l, a ∉ l₂ := fun a ha ha₂ =>
      ne_of_free (hchain₁.taken a ha) (hfree a ha₂) rfl
    have hsame := hframe.same last (hchain₁.taken last hchain₁.last_mem)
    rw [← hsame.length_eq, ← hsame.used_eq] at hlen
    obtain ⟨hstore, hself, hother⟩ := (hchain₃.join hchain₂ hdisj).store
      (mem_append_left _ hchain₁.last_mem) hlen
    rw [hsame.length_eq, hsame.used_eq] at hstore hself hother
    refine ⟨last₂, l ++ l₂, hstore, ?_⟩
    have hold : l.flatMap h₂.data = l.flatMap h₁.data :=
      flatMap_congr fun a ha => (hframe.same a (hchain₁.taken a ha)).data_eq
    have hnew : l₂.flatMap (((h₂.doubleLinkedListJoin last new).store last
        (chunk.take (h₁.length last - h₁.used last))).data) = l₂.flatMap h₂.data :=
      flatMap_congr fun a ha => hother a fun heq =>
        hdisj last hchain₁.last_mem (heq ▸ ha)
    rw [flatMap_append, hchain₃.flatMap_copy hself hother, hnew, hdata₂]
    change l.flatMap h₂.data ++ _ ++ _ = _
    rw [hold, append_assoc, take_append_drop]
  · next hfits =>
    obtain rfl := Option.some.inj heq
    obtain ⟨hstore, hself, hother⟩ := hchain₁.store hchain₁.last_mem hlen
    refine ⟨last, l, hstore, ?_⟩
    rw [hchain₁.flatMap_copy hself hother, take_of_length_le (Nat.le_of_not_lt hfits)]

end

/-- What `append_result_data` has done for the chunks so far. -/
def Holds (h : Heap) (current : Option ℕ) (chunks : List UInt8) : Prop :=
  match current with
  | none => chunks = []
  | some first => ∃ last l, Chain h first last l ∧ l.flatMap h.data = chunks

theorem appendAll_holds {calls : List (List UInt8 × Space t)} {current current' : Option ℕ}
    {chunks : List UInt8} (hholds : Holds h current chunks)
    (heq : appendAll calls h current = some (h', current')) :
    Holds h' current' (chunks ++ calls.flatMap Prod.fst) := by
  induction calls generalizing h current chunks with
  | nil =>
    obtain ⟨rfl, rfl⟩ := Prod.mk.inj (Option.some.inj heq)
    rwa [flatMap_nil, append_nil]
  | cons call calls ih =>
    obtain ⟨⟨h₁, current₁⟩, hcall, heq⟩ := Option.bind_eq_some_iff.mp heq
    rw [flatMap_cons, ← append_assoc]
    refine ih ?_ heq
    cases current with
    | none =>
      obtain ⟨⟨h₂, first⟩, hwrite, hpair⟩ := Option.map_eq_some_iff.mp hcall
      obtain ⟨rfl, rfl⟩ := Prod.mk.inj hpair
      obtain ⟨last, new, hchain, -, -, hdata⟩ := writeResultData_spec hwrite
      have hnil : chunks = [] := hholds
      rw [hnil]
      exact ⟨last, new, hchain, hdata⟩
    | some first =>
      obtain ⟨h₂, hwrite, hpair⟩ := Option.map_eq_some_iff.mp hcall
      obtain ⟨rfl, rfl⟩ := Prod.mk.inj hpair
      obtain ⟨last, l, hchain, hdata⟩ := hholds
      obtain ⟨last', l', hchain', hdata'⟩ := appendToChain_spec hchain hwrite
      exact ⟨last', l', hchain', by rw [hdata', hdata]⟩

/-! ## Joining -/

theorem write_append (m : ℕ → UInt8) (p : ℕ) (d d' : List UInt8) :
    write (write m p d) (p + d.length) d' = write m p (d ++ d') := by
  funext q
  unfold write
  by_cases hq : q < p
  · rw [if_pos hq, if_pos hq, if_pos (by omega)]
  · rw [if_neg hq, if_neg hq]
    by_cases hd : q < p + d.length
    · rw [if_pos hd, List.getElem?_append_left (by omega)]
    · have hnone : d[q - p]? = none := List.getElem?_eq_none (by omega)
      rw [if_neg hd, List.getElem?_append_right (by omega), hnone, Option.getD_none, Nat.sub_sub]

theorem data_copy_of_ne {target offset : ℕ} {d : List UInt8} (hne : a ≠ target) :
    (h.copy target offset d).data a = h.data a := by
  have hbytes : (h.copy target offset d).bytes a = h.bytes a := update_of_ne hne ..
  rw [data, hbytes]
  rfl

theorem joinLoop_spec {target block n : ℕ} (writeTo : ℕ) (hwalk : Walk next first block l)
    (hnext : h.next = next) (hn : l.length ≤ n) (htarget : target ∉ l) :
    ∃ free, joinLoop first target n block writeTo h = { h with
        bytes := update h.bytes target
          (write (h.bytes target) writeTo (l.flatMap h.data))
        free := free } ∧ ∀ a ∉ l, free a = h.free a := by
  induction hwalk generalizing h n writeTo with
  | @last a ha =>
    obtain ⟨n, rfl⟩ := Nat.exists_eq_add_one_of_ne_zero (Nat.ne_zero_of_lt hn)
    refine ⟨update h.free a true, ?_, fun x hx => ?_⟩
    · rw [joinLoop, congrFun hnext a, if_pos ha, flatMap_singleton]
      rfl
    · exact update_of_ne (fun heq => hx (mem_singleton.mpr heq)) ..
  | @step a l hne hal _ ih =>
    obtain ⟨n, rfl⟩ := Nat.exists_eq_add_one_of_ne_zero (Nat.ne_zero_of_lt hn)
    rw [mem_cons, not_or] at htarget
    have hdata : l.flatMap (h.copy target writeTo (h.data a)).data = l.flatMap h.data :=
      flatMap_congr fun x hx => data_copy_of_ne fun heq => htarget.2 (heq ▸ hx)
    have hbytes : (h.copy target writeTo (h.data a)).bytes target =
        write (h.bytes target) writeTo (h.data a) := update_self ..
    obtain ⟨free, hloop, hfree⟩ := ih (h := { h.copy target writeTo (h.data a) with
      free := update h.free a true }) (writeTo + (h.data a).length) hnext
      (Nat.le_of_succ_le_succ hn) htarget.2
    refine ⟨free, ?_, fun x hx => ?_⟩
    · rw [joinLoop, congrFun hnext a, if_neg hne]
      have hwrite : update (h.copy target writeTo (h.data a)).bytes target
          (write ((h.copy target writeTo (h.data a)).bytes target) (writeTo + (h.data a).length)
            (l.flatMap (h.copy target writeTo (h.data a)).data)) =
          update h.bytes target
            (write (h.bytes target) writeTo ((a :: l).flatMap h.data)) := by
        rw [hbytes, hdata, write_append, copy, update_idem, flatMap_cons]
      exact hloop.trans
        (congrArg (fun bytes => ({ h with bytes := bytes, free := free } : Heap)) hwrite)
    · rw [mem_cons, not_or] at hx
      exact (hfree x hx.2).trans (update_of_ne hx.1 ..)

theorem Chain.joinResults {joinLimit fuel len : ℕ} (hchain : Chain h first last l)
    (hlen : (l.flatMap h.data).length = len) (hfuel : l.length ≤ fuel)
    {bins : FreeBins t} {b : BinTable.FreeBlock}
    (hfound : (t.getFreeBlock bins (alignSize len + headersLen) true 0).1 = some b)
    (hroom : alignSize len + headersLen ≤ b.length)
    (hlimit : ¬ (len ≤ joinLimit ∨ h.free b.addr = false)) :
    let joined := h.joinResults joinLimit fuel first len bins
    Chain joined.1 joined.2 b.addr [b.addr] ∧ joined.1.data b.addr = l.flatMap h.data := by
  have hfree := Bool.eq_true_of_not_eq_false (not_or.mp hlimit).2
  have hlength : len + headersLen ≤
      (if alignSize (len + headersLen) + minAllocationUnit < b.length then
        alignSize (len + headersLen) else b.length) := by
    have hle := le_alignSize (len + headersLen)
    have hle' := le_alignSize len
    split <;> omega
  obtain ⟨hsingle, hframe⟩ := take_spec hfree (Nat.le_add_left _ _) hlength
  have hbl : b.addr ∉ l := fun hmem => ne_of_free (hchain.taken _ hmem) hfree rfl
  have hused : ((h.takeBlock b.addr (if alignSize (len + headersLen) + minAllocationUnit < b.length
      then alignSize (len + headersLen) else b.length)).initBlock b.addr (len + headersLen)).used
      b.addr = len + headersLen := update_self ..
  simp only [Heap.joinResults, hfound, if_neg hlimit]
  generalize (h.takeBlock _ _).initBlock _ _ = h₁ at *
  have hchain₁ := hchain.of_frame hframe fun _ _ => not_mem_nil
  have hdata : l.flatMap h₁.data = l.flatMap h.data :=
    flatMap_congr fun a ha => (hframe.same a (hchain.taken a ha)).data_eq
  obtain ⟨free, hloop, hother⟩ := joinLoop_spec headersLen hchain₁.walk rfl hfuel hbl
  rw [hloop, hdata]
  refine ⟨{ hsingle with taken := fun a ha => ?_ }, ?_⟩
  · obtain rfl := mem_singleton.mp ha
    exact (hother _ hbl).trans (hsingle.taken _ ha)
  · rw [data]
    dsimp only
    rw [update_self, hused, Nat.add_sub_cancel, (stands_write _ _ _).slice_eq hlen.symm]

/-- After the calls for the chunks the result is what was sent, and `join_results` keeps it as soon
as its loop has enough fuel.  The block that it finds is long enough in an even table, and in any
one for results above the limit. -/
theorem results_kept (queryCacheSize : ℕ) (hcache : queryCacheSize < 2 ^ 64) (t : BinTable)
    (ht : initBins queryCacheSize = some t) (h₀ h : Heap) (calls : List (List UInt8 × Space t))
    (current : Option ℕ) (hcalls : appendAll calls h₀ none = some (h, current)) :
    let chunks := calls.flatMap Prod.fst
    Holds h current chunks ∧
      ∀ first, current = some first → ∃ fuel₀, ∀ fuel ≥ fuel₀, ∀ joinLimit (bins : FreeBins t),
        queryCachePackLimit ≤ joinLimit ∨
          t.steps.IsChain BinTable.Even ∧ minAllocationUnit ≤ joinLimit →
        let joined := h.joinResults joinLimit fuel first chunks.length bins
        Holds joined.1 (some joined.2) chunks := by
  intro chunks
  have hholds : Holds h current chunks :=
    appendAll_holds (show Holds h₀ none [] from rfl) hcalls
  refine ⟨hholds, ?_⟩
  rintro first rfl
  obtain ⟨last, l, hchain, hdata⟩ := hholds
  refine ⟨l.length, fun fuel hfuel joinLimit bins hjoin => ?_⟩
  cases hfound : (t.getFreeBlock bins (alignSize chunks.length + headersLen) true 0).1 with
  | none =>
    simp only [joinResults, hfound]
    exact ⟨last, l, hchain, hdata⟩
  | some b =>
    by_cases hlimit : chunks.length ≤ joinLimit ∨ h.free b.addr = false
    · simp only [joinResults, hfound, if_pos hlimit]
      exact ⟨last, l, hchain, hdata⟩
    · have hle := le_alignSize chunks.length
      have hlarge : t.steps.IsChain BinTable.Even ∧
          minAllocationUnit ≤ alignSize chunks.length + headersLen ∨
            524288 ≤ alignSize chunks.length + headersLen := by
        rw [not_or, Nat.not_le] at hlimit
        rcases hjoin with hpack | ⟨heven, hunit⟩
        · unfold queryCachePackLimit at hpack
          right
          omega
        · exact .inl ⟨heven, by omega⟩
      have hroom := BinTable.le_length_of_getFreeBlock hcache ht hlarge bins.2 hfound
      obtain ⟨hchain', hdata'⟩ :=
        hchain.joinResults (congrArg _ hdata) hfuel hfound hroom hlimit
      refine ⟨b.addr, [b.addr], hchain', ?_⟩
      rw [flatMap_singleton, hdata', hdata]

/-- The table of a cache of one megabyte. -/
def smallTable : BinTable :=
  ⟨[⟨65536, 0, 0⟩, ⟨16384, 2, 24576⟩, ⟨4096, 5, 4096⟩, ⟨1024, 9, 768⟩, ⟨256, 15, 128⟩], 14⟩

/-- One free block. -/
def oneBlock (a length : ℕ) (h : ¬(length < minAllocationUnit ∨ ¬8 ∣ length)) :
    FreeBins smallTable :=
  ⟨_, (System.Reachable.start rfl).next (a := .insert ⟨a, length⟩) (if_neg h)⟩

/-- A chunk goes into two short blocks, the second one grows for the next chunk, and the result is
joined. -/
theorem results_kept_joined :
    let h₀ : Heap := ⟨fun _ => 0, fun _ => 0, id, id, fun _ _ => 0, fun _ => true⟩
    let space : Space smallTable :=
      ⟨some 512, [oneBlock 1 512 (by decide), oneBlock 2 512 (by decide)], 512, 100⟩
    let calls := [(List.replicate 500 1, space), (List.replicate 500 2, space)]
    ∃ h, appendAll calls h₀ none = some (h, some 1) ∧ h.next 1 = 2 ∧ h.length 2 = 1024 ∧
      Holds h (some 1) (calls.flatMap Prod.fst) ∧ ∃ fuel,
        let joined := h.joinResults 512 fuel 1 1000 (oneBlock 3 2048 (by decide))
        joined.2 = 3 ∧ Holds joined.1 (some 3) (calls.flatMap Prod.fst) := by
  intro h₀ space calls
  have htable : initBins 1048576 = some smallTable := by
    simp [initBins, binSteps, nextBinCount, minAllocationUnit, smallTable]
  have hmap : (appendAll calls h₀ none).map (fun r => (r.2, r.1.next 1, r.1.length 2, r.1.free 3)) =
      some (some 1, 2, 1024, true) := by decide +kernel
  obtain ⟨⟨h, current⟩, heq, hresult⟩ := Option.map_eq_some_iff.mp hmap
  simp only [Prod.mk.injEq] at hresult
  obtain ⟨rfl, hnext, hlength, hfree⟩ := hresult
  obtain ⟨hholds, hjoin⟩ := results_kept 1048576 (by decide) smallTable htable h₀ h _ _ heq
  obtain ⟨fuel, hjoined⟩ := hjoin 1 rfl
  have hfound : (smallTable.getFreeBlock (oneBlock 3 2048 (by decide)).1
      (alignSize 1000 + headersLen) true 0).1 = some ⟨3, 2048⟩ := by decide +kernel
  have hmoved : (h.joinResults 512 fuel 1 1000 (oneBlock 3 2048 (by decide))).2 = 3 := by
    simp only [joinResults, hfound, hfree]
    rfl
  have hchunks : (calls.flatMap Prod.fst).length = 1000 := by decide +kernel
  have hkept := hjoined fuel le_rfl 512 (oneBlock 3 2048 (by decide)) (.inr ⟨by decide, by decide⟩)
  dsimp only at hkept
  rw [hchunks, hmoved] at hkept
  exact ⟨h, heq, hnext, hlength, hholds, fuel, hmoved, hkept⟩

end Heap

end MySQL.Sql.QueryCache

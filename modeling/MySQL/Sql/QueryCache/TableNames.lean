import MySQL.Sql.QueryCache.Tables

/-!
# The names of a table block

The privileges of a cache hit are checked with the strings at `db()` and `table()` of the blocks.
-/

namespace MySQL.Sql.QueryCache

open List

variable {files : FileNames} {c : Chance} {chance : ℕ → Chance} {ts ts' : List TableBlock}
  {t : TableBlock} {x : Node} {o : Object} {e q n m : ℕ} {ok : Bool} {used : List UsedTable}
  {rest : List (Object × ℕ)} {db name : List UInt8}

/-- The C string at an address of the key. -/
def TableBlock.text (t : TableBlock) (p : ℕ) : List UInt8 :=
  (t.key.drop (p - t.db)).takeWhile (· ≠ 0)

/-- The names of the block are those of an object, whose key it has. -/
def TableBlock.Names (t : TableBlock) (o : Object) : Prop :=
  t.key = tableKey o.db o.name ∧ t.text t.db = o.db ∧ t.text t.tbl = o.name

/-- `move_by_type` for a block of a table, to a new address of the key. -/
def TableBlock.move (t : TableBlock) (address : ℕ) : TableBlock :=
  let tablenameOffset := (t.tbl - t.db) % 2 ^ 32
  { t with db := address, tbl := address + tablenameOffset }

inductive CacheOp where
  | register (q : ℕ) (used : List UsedTable) (chance : ℕ → Chance)
  | free (q : ℕ)
  | move (key : List UInt8) (address : ℕ)

/-- The cache with the calls that change its tables; it is empty at first. -/
def tableSystem (files : FileNames) : Lib.System (List TableBlock) CacheOp where
  init ts := ts = []
  step ts
    | .register q used chance => (registerAllTables files chance q used ts).map Prod.fst
    | .free q => some (freeQuery ts q)
    | .move key address => some (ts.map fun t => if t.key = key then t.move address else t)

/-! ## Keys -/

section

variable (files : FileNames) (o : Object)

/-- The names as they stand in the key. -/
def Object.stored : List UInt8 × List UInt8 :=
  if o.kind = .mergeChild then (files.encode o.db, files.encode o.name) else (o.db, o.name)

theorem rtakeWhile_append_cons {p : UInt8 → Bool} {a l : List UInt8} {b : UInt8} (hb : p b = false)
    (hl : ∀ c ∈ l, p c = true) :
    (a ++ b :: l).rtakeWhile p = l ∧ (a ++ b :: l).rdropWhile p = a ++ [b] := by
  have hrev : (a ++ b :: l).reverse = l.reverse ++ b :: a.reverse := by simp
  have htrue : ∀ c ∈ l.reverse, p c = true := fun c hc => hl c (mem_reverse.mp hc)
  rw [List.rtakeWhile, List.rdropWhile, hrev, takeWhile_append_of_pos htrue,
    dropWhile_append_of_pos htrue, takeWhile_cons_of_neg (by simp [hb]),
    dropWhile_cons_of_neg (by simp [hb])]
  simp

/-- The path of a table gives the names that stand in it. -/
theorem filename2TableKey_eq (dir : List UInt8) (hdb : 47 ∉ db) (hne : db ≠ [])
    (hname : 47 ∉ name) :
    filename2TableKey (dir ++ 47 :: (db ++ 47 :: name)) = (tableKey db name, db.length) := by
  have hplain {l : List UInt8} (h : 47 ∉ l) (c : UInt8) (hc : c ∈ l) : decide (c ≠ 47) = true :=
    decide_eq_true fun heq => h (heq ▸ hc)
  have hpath : 47 :: 47 :: (dir ++ 47 :: (db ++ 47 :: name)) =
      (47 :: 47 :: dir ++ 47 :: db) ++ 47 :: name := by simp
  obtain ⟨htake, hdrop⟩ := rtakeWhile_append_cons (a := 47 :: 47 :: dir ++ 47 :: db) (b := 47)
    rfl (hplain hname)
  obtain ⟨front, last, rfl⟩ : ∃ front last, db = front ++ [last] :=
    ⟨_, _, (dropLast_append_getLast hne).symm⟩
  have hfront : 47 ∉ front := fun h => hdb (mem_append_left _ h)
  obtain ⟨htake', -⟩ := rtakeWhile_append_cons (b := 47) rfl
    (hplain hfront)
  unfold filename2TableKey
  dsimp only
  rw [hpath, htake, hdrop, dropLast_concat, show 47 :: 47 :: dir ++ 47 :: (front ++ [last]) =
    (47 :: 47 :: dir ++ 47 :: front) ++ [last] by simp, dropLast_concat, List.getLast?_concat,
    htake']
  rfl

theorem Object.key_eq :
    o.key files = tableKey (o.stored files).1 (o.stored files).2 ∧
      o.dbLength files = (o.stored files).1.length + if o.kind = .view then 1 else 0 := by
  unfold Object.key Object.dbLength Object.stored
  cases hkind : o.kind with
  | table => exact ⟨rfl, rfl⟩
  | view => exact ⟨rfl, rfl⟩
  | mergeChild =>
    have hpath := filename2TableKey_eq files.dir (files.encode_plain o.db).2.2
      (files.encode_ne_nil o.db o.ne_nil.1) (files.encode_plain o.name).2.2
    unfold FileNames.path
    rw [hpath]
    exact ⟨rfl, rfl⟩

theorem Object.plain_stored : 0 ∉ (o.stored files).1 ∧ 0 ∉ (o.stored files).2 := by
  unfold Object.stored
  split
  · exact ⟨(files.encode_plain _).1, (files.encode_plain _).1⟩
  · exact o.plain

theorem Object.length_stored_le : (o.stored files).1.length ≤ 512 := by
  unfold Object.stored
  split
  · exact files.length_encode_le _
  · exact Nat.le_trans o.length_db_le (by decide)

end

theorem takeWhile_ne_zero {l m : List UInt8} (h : 0 ∉ l) : (l ++ 0 :: m).takeWhile (· ≠ 0) = l := by
  have hall : ∀ b ∈ l, decide (b ≠ 0) = true := fun b hb => decide_eq_true fun hz => h (hz ▸ hb)
  rw [takeWhile_append_of_pos hall, takeWhile_cons_of_neg (by simp), append_nil]

theorem tableKey_inj {db' name' : List UInt8} (hdb : 0 ∉ db) (hdb' : 0 ∉ db')
    (h : tableKey db name = tableKey db' name') : db = db' ∧ name = name' := by
  have heq := congrArg (List.takeWhile (· ≠ 0)) h
  unfold tableKey at h heq
  rw [takeWhile_ne_zero hdb, takeWhile_ne_zero hdb'] at heq
  subst heq
  exact ⟨rfl, by simpa using h⟩

/-! ## Blocks -/

/-- What holds of a block: the key is the one of all its objects, and the pointer to the name has
the distance that was given for the first of them. -/
structure TableBlock.Valid (files : FileNames) (t : TableBlock) : Prop where
  key_eq : t.key = t.creator.key files
  objects_key : ∀ o ∈ t.objects, o.key files = t.key
  tbl_eq : t.tbl = t.db + (t.creator.dbLength files + 1)

theorem TableBlock.Valid.move (h : t.Valid files) (address : ℕ) : (t.move address).Valid files := by
  refine ⟨h.key_eq, h.objects_key, ?_⟩
  obtain ⟨-, hlen⟩ := t.creator.key_eq files
  have hle := t.creator.length_stored_le files
  have hone : (if t.creator.kind = .view then 1 else 0) ≤ 1 := by split <;> decide
  rw [TableBlock.move, h.tbl_eq, Nat.add_sub_cancel_left, Nat.mod_eq_of_lt (by omega)]

def AllValid (files : FileNames) (ts : List TableBlock) : Prop := ∀ t ∈ ts, t.Valid files

theorem AllValid.unlinkTable (h : AllValid files ts) (x : Node) :
    AllValid files (unlinkTable ts x) := by
  intro t' ht'
  obtain ⟨t, ht, heq⟩ := mem_filterMap.mp ht'
  have hvalid := h t ht
  split at heq
  · dsimp only at heq
    split at heq
    · cases heq
    · obtain rfl := Option.some.inj heq
      exact ⟨hvalid.key_eq, hvalid.objects_key, hvalid.tbl_eq⟩
  · exact Option.some.inj heq ▸ hvalid

theorem AllValid.foldl {α : Type*} {f : List TableBlock → α → List TableBlock}
    (hf : ∀ ts a, AllValid files ts → AllValid files (f ts a)) (l : List α)
    (h : AllValid files ts) : AllValid files (l.foldl f ts) := by
  induction l generalizing ts with
  | nil => exact h
  | cons a l ih => exact ih (hf ts a h)

section

variable (h : AllValid files ts)

include h

theorem AllValid.freeQuery (q : ℕ) : AllValid files (freeQuery ts q) :=
  h.foldl (fun _ x h => h.unlinkTable x) _

theorem AllValid.link (x : Node) (o : Object) : AllValid files (link ts (o.key files) x o) := by
  intro t' ht'
  obtain ⟨t, ht, rfl⟩ := List.mem_map.mp ht'
  have hvalid := h t ht
  split
  · next hkey =>
    refine ⟨hvalid.key_eq, fun o' ho' => ?_, hvalid.tbl_eq⟩
    rcases mem_cons.mp ho' with rfl | ho'
    · exact hkey.symm
    · exact hvalid.objects_key o' ho'
  · exact hvalid

theorem AllValid.insertTable (hinsert : insertTable files c ts x o e = some (ts', ok)) :
    AllValid files ts' := by
  rcases insertTable_cases hinsert with ⟨-, -, -, rfl⟩ | ⟨qs, -, -, hcreate⟩
  · exact h.link x o
  · have hfreed := (h.foldl (fun _ q h => h.freeQuery q) qs).foldl (fun _ q h => h.freeQuery q)
      c.evicted
    unfold createTable at hcreate
    split at hcreate
    · exact (Prod.mk.inj hcreate).1 ▸ hfreed
    · split at hcreate
      · rw [← (Prod.mk.inj hcreate).1]
        refine AllValid.link (fun t ht => ?_) x o
        rcases mem_cons.mp ht with rfl | ht
        · exact ⟨rfl, fun _ h => (not_mem_nil h).elim, rfl⟩
        · exact hfreed t ht
      · exact (Prod.mk.inj hcreate).1 ▸ hfreed

theorem AllValid.registerTablesFromList
    (hlist : registerTablesFromList files chance q n rest ts = some (ts', m)) :
    AllValid files ts' := by
  induction rest generalizing n ts with
  | nil => exact (Prod.mk.inj (Option.some.inj hlist)).1 ▸ h
  | cons oe rest ih =>
    obtain ⟨⟨ts₁, ok⟩, hinsert, hrest⟩ := Option.bind_eq_some_iff.mp hlist
    have hvalid := h.insertTable hinsert
    dsimp only at hrest
    split at hrest
    · exact ih hvalid hrest
    · exact (Prod.mk.inj (Option.some.inj hrest)).1 ▸ hvalid

theorem AllValid.step {op : CacheOp} (hstep : (tableSystem files).step ts op = some ts') :
    AllValid files ts' := by
  cases op with
  | register q used chance =>
    obtain ⟨⟨us, ok⟩, hall, rfl⟩ := Option.map_eq_some_iff.mp hstep
    obtain ⟨⟨vs, n⟩, hlist, hresult⟩ := Option.map_eq_some_iff.mp hall
    rw [← (Prod.mk.inj hresult).1]
    have hvalid := h.registerTablesFromList hlist
    split
    · exact hvalid.foldl (fun _ x h => h.unlinkTable x) _
    · exact hvalid
  | free q => exact Option.some.inj hstep ▸ h.freeQuery q
  | move key address =>
    obtain rfl := Option.some.inj hstep
    intro t' ht'
    obtain ⟨t, ht, rfl⟩ := List.mem_map.mp ht'
    split
    · exact (h t ht).move address
    · exact h t ht

end

theorem TableBlock.Valid.names_iff (h : t.Valid files) (ho : o ∈ t.objects) :
    t.Names o ↔ t.creator.kind ≠ .view ∧ o.stored files = (o.db, o.name) := by
  obtain ⟨hkey, hlen⟩ := t.creator.key_eq files
  obtain ⟨hdb, hname⟩ := t.creator.plain_stored files
  obtain ⟨hdb', hname'⟩ := o.plain_stored files
  have hobject := h.objects_key o ho
  rw [(o.key_eq files).1, h.key_eq, hkey] at hobject
  obtain ⟨heq, heq'⟩ := tableKey_inj hdb' hdb hobject
  have htext : t.text t.db = (o.stored files).1 := by
    rw [TableBlock.text, Nat.sub_self, h.key_eq, hkey, heq]
    exact takeWhile_ne_zero hdb
  have hrest : t.key.drop ((o.stored files).1.length + 1) = (o.stored files).2 ++ [0] := by
    rw [h.key_eq, hkey, ← heq, ← heq', tableKey, ← drop_drop, drop_left]
    rfl
  have hstored : t.key = tableKey o.db o.name ↔ o.stored files = (o.db, o.name) := by
    rw [← h.objects_key o ho, (o.key_eq files).1]
    refine ⟨fun hkeys => ?_, fun hnames => by rw [hnames]⟩
    obtain ⟨h₁, h₂⟩ := tableKey_inj hdb' o.plain.1 hkeys
    exact Prod.ext h₁ h₂
  have htable : t.text t.tbl = (((o.stored files).2 ++ [0]).drop
      (if t.creator.kind = ObjectKind.view then 1 else 0)).takeWhile (· ≠ 0) := by
    rw [TableBlock.text, h.tbl_eq, Nat.add_sub_cancel_left, hlen, ← heq, Nat.add_right_comm,
      ← drop_drop, hrest]
  rw [TableBlock.Names, hstored, htext, htable, and_comm (a := _ ≠ _)]
  refine and_congr_right fun hnames => ?_
  rw [hnames]
  obtain ⟨b, l, hl⟩ := exists_cons_of_ne_nil o.ne_nil.2
  have hplain := o.plain.2
  rw [hl] at hplain ⊢
  by_cases hview : t.creator.kind = .view
  · have hlong : ¬ l = b :: l := fun hl => by simpa using congrArg List.length hl
    rw [if_pos hview, cons_append, drop_succ_cons, drop_zero,
      takeWhile_ne_zero fun hmem => hplain (mem_cons_of_mem b hmem)]
    simp [hview, hlong]
  · rw [if_neg hview, drop_zero, takeWhile_ne_zero hplain]
    simp [hview]

/-- In every state of the cache, the names of a block are those of an object registered with it just
where the block was not written for a view, and the object is not a child of a MERGE table whose
names are spelled in another way in paths. -/
theorem tableNames_right_iff (files : FileNames) (ts : List TableBlock)
    (hts : (tableSystem files).Reachable ts) (t : TableBlock) (ht : t ∈ ts) (o : Object)
    (ho : o ∈ t.objects) :
    t.Names o ↔ t.creator.kind ≠ .view ∧ (o.kind = .mergeChild →
      files.encode o.db = o.db ∧ files.encode o.name = o.name) := by
  have hvalid : AllValid files ts := hts.invariant
    (fun _ hnil t ht => by rw [hnil] at ht; exact (not_mem_nil ht).elim)
    (fun _ _ _ _ h hstep => h.step hstep)
  rw [(hvalid t ht).names_iff ho, Object.stored]
  split
  · next hkind => simp [hkind]
  · next hkind => simp [hkind]

/-- A view and a table are registered, and the block of the table is moved. -/
def sampleOps : List CacheOp :=
  [.register 1 [.view sampleView, .table sampleTableA 0 []]
    fun n => ⟨[], some (100 * n), true⟩, .move [100, 0, 97, 0] 500]

theorem tableNames_right_moved :
    ∃ ts, (tableSystem sampleFiles).run [] sampleOps = some ts ∧ ∃ t ∈ ts, ∃ o ∈ t.objects,
      t.db = 500 ∧ t.Names o := by
  obtain ⟨ts, hrun⟩ : ∃ ts, (tableSystem sampleFiles).run [] sampleOps = some ts := ⟨_, rfl⟩
  have hts := (Lib.System.Reachable.start rfl).run hrun
  refine ⟨ts, hrun, ?_⟩
  obtain rfl := Option.some.inj hrun
  refine ⟨_, mem_cons_self, _, mem_cons_self, rfl, ?_⟩
  exact (tableNames_right_iff sampleFiles _ hts _ mem_cons_self _ mem_cons_self).mpr
    ⟨by decide, by decide⟩

/-- The view `v1` is registered, and the privileges of `1` are checked. -/
theorem tableNames_view :
    ((tableSystem sampleFiles).run [] (sampleOps.take 1)).map
      (·.map fun t => (t.text t.db, t.text t.tbl)) = some [([100], [97]), ([100], [49])] := by
  rfl

end MySQL.Sql.QueryCache

import MySQL.Lib.System

/-!
# Tables of the query cache

What `sql_cache.cc` keeps of the tables and views that cached queries use.  A `Chance` says what a
call gets from the memory of the cache.
-/

namespace MySQL.Sql.QueryCache

open List

/-- A `Query_cache_block_table`: the block of a query and the place in it. -/
structure Node where
  query : ℕ
  n : ℕ
  deriving DecidableEq

inductive ObjectKind where
  | table
  | view
  | mergeChild
  deriving DecidableEq

/-- The spelling of names in paths (`tablename_to_filename`), where `fn_format` finds no extension
to cut, and the directory of the data. -/
structure FileNames where
  dir : List UInt8
  encode : List UInt8 → List UInt8
  encode_plain : ∀ l, 0 ∉ encode l ∧ 46 ∉ encode l ∧ 47 ∉ encode l
  encode_ne_nil : ∀ l ≠ [], encode l ≠ []
  length_encode_le : ∀ l, (encode l).length ≤ 512

/-- What is registered for a query: a table, a view or a child of a MERGE table. -/
structure Object where
  kind : ObjectKind
  db : List UInt8
  name : List UInt8
  plain : 0 ∉ db ∧ 0 ∉ name
  ne_nil : db ≠ [] ∧ name ≠ []
  length_db_le : db.length ≤ 192

def tableKey (db name : List UInt8) : List UInt8 := db ++ 0 :: (name ++ [0])

/-- `filename_2_table_key`: the key and the length of the database name. -/
def filename2TableKey (path : List UInt8) : List UInt8 × ℕ :=
  let tablename := 47 :: 47 :: path
  let filename := tablename.rtakeWhile (· ≠ 47)
  let dir := (tablename.rdropWhile (· ≠ 47)).dropLast
  -- The loop goes back from the last character of the database name, whatever that is.
  let dbname := dir.dropLast.rtakeWhile (· ≠ 47) ++ dir.getLast?.toList
  (tableKey dbname filename, dbname.length)

def FileNames.path (files : FileNames) (o : Object) : List UInt8 :=
  files.dir ++ 47 :: (files.encode o.db ++ 47 :: files.encode o.name)

def Object.key (files : FileNames) (o : Object) : List UInt8 :=
  match o.kind with
  | .table | .view => tableKey o.db o.name
  | .mergeChild => (filename2TableKey (files.path o)).1

/-- The `db_length` that `register_tables_from_list` gives to `insert_table`. -/
def Object.dbLength (files : FileNames) (o : Object) : ℕ :=
  match o.kind with
  | .table => o.db.length
  | .view => o.db.length + 1
  | .mergeChild => (filename2TableKey (files.path o)).2

/-- A block of a table with its list of nodes.  `db` is the address of the key and `tbl` the pointer
to the table name; the object that the block was written for and those that were registered with it
are not kept by the source. -/
structure TableBlock where
  db : ℕ
  tbl : ℕ
  key : List UInt8
  nodes : List Node
  cachedQueryCount : ℤ
  engineData : ℕ
  creator : Object
  objects : List Object

def linked (ts : List TableBlock) : List Node := ts.flatMap TableBlock.nodes

/-- `unlink_table`: a table without queries is removed. -/
def unlinkTable (ts : List TableBlock) (x : Node) : List TableBlock :=
  ts.filterMap fun t =>
    if x ∈ t.nodes then
      let nodes := t.nodes.filter (· ≠ x)
      if nodes = [] then none
      else some { t with nodes := nodes, cachedQueryCount := t.cachedQueryCount - 1 }
    else some t

def freeQuery (ts : List TableBlock) (q : ℕ) : List TableBlock :=
  ((linked ts).filter (·.query = q)).foldl unlinkTable ts

/-- What `write_block_data` and `my_hash_insert` do: the old queries that are freed for the memory,
the place of the block if there is one, and whether the hash takes it. -/
structure Chance where
  evicted : List ℕ
  address : Option ℕ
  hashed : Bool

def link (ts : List TableBlock) (key : List UInt8) (x : Node) (o : Object) : List TableBlock :=
  ts.map fun t =>
    if t.key = key then
      { t with
        nodes := x :: t.nodes
        cachedQueryCount := t.cachedQueryCount + 1
        objects := o :: t.objects }
    else t

section Insert

variable (files : FileNames) (c : Chance) (ts : List TableBlock) (x : Node) (o : Object) (e : ℕ)

/-- The part of `insert_table` for a table that is not in the cache. -/
def createTable : List TableBlock × Bool :=
  let ts := c.evicted.foldl freeQuery ts
  match c.address with
  | none => (ts, false)
  | some a =>
    if c.hashed then
      let t := ⟨a, a + o.dbLength files + 1, o.key files, [], 0, e, o, []⟩
      (link (t :: ts) (o.key files) x o, true)
    else (ts, false)

/-- `insert_table`; `none` if it waits for a lock on a query that is being stored. -/
def insertTable : Option (List TableBlock × Bool) :=
  match ts.find? (·.key = o.key files) with
  | none => some (createTable files c ts x o e)
  | some t =>
    let queries := t.nodes.map Node.query
    if t.engineData = e then some (link ts (o.key files) x o, true)
    else if x.query ∈ queries then none
    else some (createTable files c (queries.foldl freeQuery ts) x o e)

/-- The queries that `insert_table` frees. -/
def freed : List ℕ :=
  match ts.find? (·.key = o.key files) with
  | none => c.evicted
  | some t => if t.engineData = e then [] else t.nodes.map Node.query ++ c.evicted

end Insert

/-- A `TABLE_LIST` of a query; a MERGE table has children. -/
inductive UsedTable where
  | derived
  | view (o : Object)
  | table (o : Object) (engineData : ℕ) (children : List Object)

def UsedTable.objects : UsedTable → List (Object × ℕ)
  | .derived => []
  | .view o => [({ o with kind := .view }, 0)]
  | .table o e children =>
    ({ o with kind := .table }, e) :: children.map fun o => ({ o with kind := .mergeChild }, 0)

/-- `register_tables_from_list`: the number of tables, or 0 if `insert_table` failed. -/
def registerTablesFromList (files : FileNames) (chance : ℕ → Chance) (q : ℕ) :
    ℕ → List (Object × ℕ) → List TableBlock → Option (List TableBlock × ℕ)
  | n, [], ts => some (ts, n)
  | n, (o, e) :: rest, ts =>
    (insertTable files (chance n) ts ⟨q, n⟩ o e).bind fun (ts, ok) =>
      if ok then registerTablesFromList files chance q (n + 1) rest ts else some (ts, 0)

/-- `register_all_tables` for the block of the query `q`. -/
def registerAllTables (files : FileNames) (chance : ℕ → Chance) (q : ℕ) (used : List UsedTable)
    (ts : List TableBlock) : Option (List TableBlock × Bool) :=
  let blockTable := 0
  (registerTablesFromList files chance q 0 (used.flatMap UsedTable.objects) ts).map fun (ts, n) =>
    -- The nodes from the first one up to `block_table`, which was passed by value.
    (if n = 0 then ((List.range blockTable).map (Node.mk q)).foldl unlinkTable ts else ts,
      decide (n ≠ 0))

/-! ## Nodes in lists -/

variable {files : FileNames} {c : Chance} {chance : ℕ → Chance} {ts ts' : List TableBlock}
  {x y : Node} {o : Object} {e q n m : ℕ} {ok : Bool} {used : List UsedTable}
  {rest : List (Object × ℕ)}

theorem mem_linked : y ∈ linked ts ↔ ∃ t ∈ ts, y ∈ t.nodes := mem_flatMap

theorem mem_linked_unlinkTable : y ∈ linked (unlinkTable ts x) ↔ y ∈ linked ts ∧ y ≠ x := by
  simp only [mem_linked, unlinkTable, mem_filterMap]
  constructor
  · rintro ⟨t', ⟨t, ht, heq⟩, hy⟩
    split at heq
    · split at heq
      · cases heq
      · obtain rfl := Option.some.inj heq
        obtain ⟨hmem, hne⟩ := mem_filter.mp hy
        exact ⟨⟨t, ht, hmem⟩, of_decide_eq_true hne⟩
    · next hx =>
      obtain rfl := Option.some.inj heq
      exact ⟨⟨t, ht, hy⟩, fun hyx => hx (hyx ▸ hy)⟩
  · rintro ⟨⟨t, ht, hy⟩, hne⟩
    have hmem : y ∈ t.nodes.filter (· ≠ x) := mem_filter.mpr ⟨hy, decide_eq_true hne⟩
    by_cases hx : x ∈ t.nodes
    · have hnil : t.nodes.filter (· ≠ x) ≠ [] := ne_nil_of_mem hmem
      exact ⟨_, ⟨t, ht, by rw [if_pos hx, if_neg hnil]⟩, hmem⟩
    · exact ⟨t, ⟨t, ht, if_neg hx⟩, hy⟩

theorem mem_linked_unlinkAll (l : List Node) :
    y ∈ linked (l.foldl unlinkTable ts) ↔ y ∈ linked ts ∧ y ∉ l := by
  induction l generalizing ts with
  | nil => simp
  | cons x l ih =>
    rw [foldl_cons, ih, mem_linked_unlinkTable, and_assoc, mem_cons, not_or]

theorem mem_linked_freeQuery : y ∈ linked (freeQuery ts q) ↔ y ∈ linked ts ∧ y.query ≠ q := by
  rw [freeQuery, mem_linked_unlinkAll]
  refine and_congr_right fun hy => not_congr ?_
  rw [mem_filter, decide_eq_true_iff]
  exact and_iff_right hy

theorem mem_linked_freeAll (qs : List ℕ) :
    y ∈ linked (qs.foldl freeQuery ts) ↔ y ∈ linked ts ∧ y.query ∉ qs := by
  induction qs generalizing ts with
  | nil => simp
  | cons q qs ih => rw [foldl_cons, ih, mem_linked_freeQuery, and_assoc, mem_cons, not_or]

theorem freeAll_eq_self (qs : List ℕ) (h : ∀ y ∈ linked ts, y.query ∉ qs) :
    qs.foldl freeQuery ts = ts := by
  induction qs with
  | nil => rfl
  | cons q qs ih =>
    have hnone : (linked ts).filter (·.query = q) = [] := by
      rw [filter_eq_nil_iff]
      intro y hy hq
      exact h y hy (of_decide_eq_true hq ▸ mem_cons_self)
    rw [foldl_cons, freeQuery, hnone]
    exact ih fun y hy hmem => h y hy (mem_cons_of_mem q hmem)

theorem mem_linked_link (key : List UInt8) (hkey : ∃ t ∈ ts, t.key = key) :
    y ∈ linked (link ts key x o) ↔ y ∈ linked ts ∨ y = x := by
  simp only [mem_linked, link, List.mem_map]
  constructor
  · rintro ⟨_, ⟨t, ht, rfl⟩, hy⟩
    split at hy
    · exact (mem_cons.mp hy).symm.imp_left fun hy => ⟨t, ht, hy⟩
    · exact .inl ⟨t, ht, hy⟩
  · rintro (⟨t, ht, hy⟩ | rfl)
    · refine ⟨_, ⟨t, ht, rfl⟩, ?_⟩
      split
      · exact mem_cons_of_mem x hy
      · exact hy
    · obtain ⟨t, ht, hk⟩ := hkey
      exact ⟨_, ⟨t, ht, rfl⟩, by rw [if_pos hk]; exact mem_cons_self⟩

theorem mem_linked_createTable (h : createTable files c ts x o e = (ts', ok)) :
    y ∈ linked ts' ↔ y ∈ linked ts ∧ y.query ∉ c.evicted ∨ ok = true ∧ y = x := by
  rw [← mem_linked_freeAll]
  unfold createTable at h
  split at h
  · obtain ⟨rfl, rfl⟩ := Prod.mk.inj h
    simp
  · split at h
    · obtain ⟨rfl, rfl⟩ := Prod.mk.inj h
      rw [mem_linked_link _ ⟨_, mem_cons_self, rfl⟩]
      simp [linked]
    · obtain ⟨rfl, rfl⟩ := Prod.mk.inj h
      simp

section

variable (h : insertTable files c ts x o e = some (ts', ok))

include h

/-- What `insert_table` can do: the table is there, or a block is written after some queries were
freed. -/
theorem insertTable_cases :
    (∃ t ∈ ts, t.key = o.key files) ∧ freed files c ts o e = [] ∧ ok = true ∧
        ts' = link ts (o.key files) x o ∨
      ∃ qs, freed files c ts o e = qs ++ c.evicted ∧ x.query ∉ qs ∧
        createTable files c (qs.foldl freeQuery ts) x o e = (ts', ok) := by
  unfold insertTable at h
  unfold freed
  cases hfind : ts.find? (·.key = o.key files) with
  | none =>
    rw [hfind] at h
    exact .inr ⟨[], rfl, not_mem_nil, Option.some.inj h⟩
  | some t =>
    simp only [hfind] at h ⊢
    split at h
    · next heq =>
      obtain ⟨rfl, rfl⟩ := Prod.mk.inj (Option.some.inj h)
      have hkey : t.key = o.key files := by simpa using List.find?_some hfind
      exact .inl ⟨⟨t, List.mem_of_find?_eq_some hfind, hkey⟩, if_pos heq, rfl, rfl⟩
    · next hne =>
      split at h
      · cases h
      · next hown => exact .inr ⟨_, if_neg hne, hown, Option.some.inj h⟩

theorem mem_linked_insertTable :
    y ∈ linked ts' ↔ y ∈ linked ts ∧ y.query ∉ freed files c ts o e ∨ ok = true ∧ y = x := by
  rcases insertTable_cases h with ⟨hkey, hfreed, rfl, rfl⟩ | ⟨qs, hfreed, -, hcreate⟩
  · simp [mem_linked_link _ hkey, hfreed]
  · rw [mem_linked_createTable hcreate, mem_linked_freeAll, hfreed, mem_append, not_or,
      and_assoc]

theorem query_notMem_freed (hq : x.query ∉ c.evicted) : x.query ∉ freed files c ts o e := by
  rcases insertTable_cases h with ⟨-, hfreed, -⟩ | ⟨qs, hfreed, hown, -⟩
  · simp [hfreed]
  · rw [hfreed, mem_append, not_or]
    exact ⟨hown, hq⟩

end

theorem insertTable_fails_eq (h : insertTable files c ts x o e = some (ts', false))
    (hfreed : ∀ y ∈ linked ts, y.query ∉ freed files c ts o e) : ts' = ts := by
  rcases insertTable_cases h with ⟨-, -, hok, -⟩ | ⟨qs, heq, -, hcreate⟩
  · cases hok
  · have hevicted : ts' = c.evicted.foldl freeQuery (qs.foldl freeQuery ts) := by
      unfold createTable at hcreate
      split at hcreate
      · exact (Prod.mk.inj hcreate).1.symm
      · split at hcreate
        · cases (Prod.mk.inj hcreate).2
        · exact (Prod.mk.inj hcreate).1.symm
    rw [hevicted, ← foldl_append]
    exact freeAll_eq_self _ (heq ▸ hfreed)

theorem mem_linked_registerTablesFromList (hq : ∀ n, q ∉ (chance n).evicted) (hy : y.query = q)
    (hmem : y ∈ linked ts)
    (h : registerTablesFromList files chance q n rest ts = some (ts', m)) : y ∈ linked ts' := by
  induction rest generalizing n ts with
  | nil =>
    obtain ⟨rfl, -⟩ := Prod.mk.inj (Option.some.inj h)
    exact hmem
  | cons oe rest ih =>
    obtain ⟨⟨ts₁, ok⟩, hinsert, hrest⟩ := Option.bind_eq_some_iff.mp h
    have hown := query_notMem_freed hinsert (hq n)
    have hkept : y ∈ linked ts₁ := (mem_linked_insertTable hinsert).mpr (.inl ⟨hmem, hy ▸ hown⟩)
    dsimp only at hrest
    split at hrest
    · exact ih hkept hrest
    · obtain ⟨rfl, -⟩ := Prod.mk.inj (Option.some.inj hrest)
      exact hkept

/-! ## A call that fails -/

/-- No list has a node of the block `q`, and the tables have their lists and counts. -/
def Clean (q : ℕ) (ts ts' : List TableBlock) : Prop :=
  (∀ x ∈ linked ts', x.query ≠ q) ∧
    (∀ t ∈ ts, ∃ t' ∈ ts', t'.key = t.key ∧ t'.nodes = t.nodes ∧
      t'.cachedQueryCount = t.cachedQueryCount) ∧
    ∀ t' ∈ ts', ∃ t ∈ ts, t'.key = t.key ∧ t'.nodes = t.nodes ∧
      t'.cachedQueryCount = t.cachedQueryCount

theorem Clean.linked_subset (h : Clean q ts ts') (hy : y ∈ linked ts) : y ∈ linked ts' := by
  obtain ⟨t, ht, hmem⟩ := mem_linked.mp hy
  obtain ⟨t', ht', -, hnodes, -⟩ := h.2.1 t ht
  exact mem_linked.mpr ⟨t', ht', hnodes ▸ hmem⟩

/-- A call of `register_all_tables` that fails leaves the lists as they were just where the first
`insert_table` is the one that fails and no query in a list was freed for it. -/
theorem registerAllTables_clean_iff (files : FileNames) (chance : ℕ → Chance) (q : ℕ)
    (used : List UsedTable) (ts ts' : List TableBlock) (hfresh : ∀ x ∈ linked ts, x.query ≠ q)
    (hstored : ∀ n, q ∉ (chance n).evicted)
    (hfalse : registerAllTables files chance q used ts = some (ts', false)) :
    Clean q ts ts' ↔ ∀ oe ∈ (used.flatMap UsedTable.objects).head?,
      (∃ us, insertTable files (chance 0) ts ⟨q, 0⟩ oe.1 oe.2 = some (us, false)) ∧
        ∀ x ∈ linked ts, x.query ∉ freed files (chance 0) ts oe.1 oe.2 := by
  obtain ⟨⟨us, n⟩, hlist, hresult⟩ := Option.map_eq_some_iff.mp hfalse
  obtain ⟨hus, hn⟩ := Prod.mk.inj hresult
  obtain rfl : n = 0 := by simpa using hn
  obtain rfl : us = ts' := hus
  have hsame : Clean q ts ts :=
    ⟨hfresh, fun t ht => ⟨t, ht, rfl, rfl, rfl⟩, fun t ht => ⟨t, ht, rfl, rfl, rfl⟩⟩
  cases hobjects : used.flatMap UsedTable.objects with
  | nil =>
    rw [hobjects] at hlist
    obtain ⟨rfl, -⟩ := Prod.mk.inj (Option.some.inj hlist)
    exact iff_of_true hsame fun oe hoe => nomatch hoe
  | cons oe rest =>
    rw [hobjects] at hlist
    obtain ⟨⟨ts₁, ok⟩, hinsert, hrest⟩ := Option.bind_eq_some_iff.mp hlist
    simp only [List.head?_cons, Option.mem_some_iff, forall_eq']
    cases ok with
    | true =>
      -- The first node stays in the list of its table.
      have hnode : (⟨q, 0⟩ : Node) ∈ linked us := mem_linked_registerTablesFromList hstored rfl
        ((mem_linked_insertTable hinsert).mpr (.inr ⟨rfl, rfl⟩)) hrest
      refine iff_of_false (fun hclean => hclean.1 _ hnode rfl) ?_
      rintro ⟨⟨_, hfails⟩, -⟩
      rw [hinsert] at hfails
      cases hfails
    | false =>
      obtain ⟨rfl, -⟩ := Prod.mk.inj (Option.some.inj hrest)
      constructor
      · intro hclean
        refine ⟨⟨_, hinsert⟩, fun x hx hfreed => ?_⟩
        rcases (mem_linked_insertTable hinsert).mp (hclean.linked_subset hx) with ⟨-, hnot⟩ | ⟨h, -⟩
        · exact hnot hfreed
        · cases h
      · rintro ⟨-, hfreed⟩
        rw [insertTable_fails_eq hinsert hfreed]
        exact hsame

def sampleFiles : FileNames where
  dir := [46]
  encode _ := [97]
  encode_plain _ := by decide
  encode_ne_nil _ _ := by simp
  length_encode_le _ := by decide

def sampleTable (c : UInt8) (h : 0 ∉ [c]) : Object :=
  ⟨.table, [100], [c], ⟨by decide, h⟩, ⟨by simp, by simp⟩, by decide⟩

def sampleTableA : Object := sampleTable 97 (by decide)

def sampleView : Object :=
  ⟨.view, [100], [118, 49], ⟨by decide, by decide⟩, ⟨by simp, by simp⟩, by decide⟩

/-- Two tables that other queries use. -/
def sampleCache : List TableBlock :=
  let a := sampleTableA
  let c := sampleTable 99 (by decide)
  [⟨96, 98, a.key sampleFiles, [⟨4, 1⟩, ⟨3, 0⟩], 2, 0, a, [a, a]⟩,
    ⟨192, 194, c.key sampleFiles, [⟨4, 0⟩], 1, 0, c, [c]⟩]

/-- There is no memory for the first one of three tables, of which two are in the cache. -/
theorem registerAllTables_clean_first :
    registerAllTables sampleFiles (fun _ => ⟨[], none, true⟩) 7
      [.table (sampleTable 98 (by decide)) 0 [], .table (sampleTable 97 (by decide)) 0 [],
        .table (sampleTable 99 (by decide)) 0 []] sampleCache = some (sampleCache, false) ∧
      Clean 7 sampleCache sampleCache := by
  have hfails : registerAllTables sampleFiles (fun _ => ⟨[], none, true⟩) 7
      [.table (sampleTable 98 (by decide)) 0 [], .table (sampleTable 97 (by decide)) 0 [],
        .table (sampleTable 99 (by decide)) 0 []] sampleCache = some (sampleCache, false) := rfl
  refine ⟨hfails, (registerAllTables_clean_iff _ _ 7 _ _ _ ?_ (by simp) hfails).mpr ?_⟩
  · decide
  · rintro oe hoe
    obtain rfl := Option.some.inj hoe
    exact ⟨⟨sampleCache, rfl⟩, fun _ _ => not_mem_nil⟩

/-- There is memory for the first table of a query, and none for the second one. -/
theorem registerAllTables_leaves_node :
    (registerAllTables sampleFiles (fun n => ⟨[], if n = 0 then some 8 else none, true⟩) 7
      [.table (sampleTable 97 (by decide)) 0 [], .table (sampleTable 98 (by decide)) 0 []] []).map
      (fun r => (linked r.1, r.1.map TableBlock.cachedQueryCount, r.2)) =
      some ([⟨7, 0⟩], [1], false) := by
  rfl

end MySQL.Sql.QueryCache

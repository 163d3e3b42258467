import Mathlib.Data.List.Destutter
import Mathlib.Data.List.Sort
import Mathlib.Data.String.Basic
import McpgSdk.Inventory.Resource
import McpgSdk.Lib.Traverse

/-!
# Walking a directory tree

A store that only lists one directory at a time is walked breadth first, in name order. Two bounds
cut the walk: the directories it lists and the files it keeps, the first in key order.

* `walk`: the source's loop;
* `DirTree`: a directory tree, names distinct within a directory and without `/`;
* **`mem_walk`**: what a walk of a tree lists, in terms of the two cuts;
* `deletes_iff`: when a poll of an inventory at rest reports a deletion;
* **`no_false_deletion_iff`**: a tree that only grows makes the next poll report deletions exactly
  when the cuts lose a file they had;
* `addition_reported_as_deletion`: a new file that pushes another out of the cut.
-/

set_option autoImplicit false

namespace McpgSdk

open OrdMap

/-! ## The walk -/

/-- One entry of a directory listing. -/
structure DirItem where
  name : String
  isDir : Bool := false
  size : Option ℕ := none
  modifiedAtMs : Option ℤ := none
  deriving DecidableEq, Repr

/-- How `walk` goes through a directory tree. A pattern is given by what it matches. -/
structure WalkOptions where
  recursive : Bool
  pattern : Option (String → Bool)
  maxFiles : ℕ
  maxDirs : ℕ

/-- The path of an item of `dir`, relative to the root. -/
def itemKey (dir name : String) : String := if dir.isEmpty then name else dir ++ "/" ++ name

/-- The names that are no items: the directory itself and its parent. -/
def isSkipped (name : String) : Bool := name.isEmpty || name == "." || name == ".."

/-- The file `item` of `dir` as it is listed. -/
def fileEntry (dir : String) (item : DirItem) : ObjectEntry :=
  { key := itemKey dir item.name, size := item.size, modifiedAtMs := item.modifiedAtMs }

/-- Whether the pattern keeps a key. -/
def WalkOptions.keeps (o : WalkOptions) (key : String) : Bool := o.pattern.all fun p => p key

/-- The items of one directory: queue the directories, collect the files. -/
def walkItems (o : WalkOptions) (dir : String) :
    List DirItem → List String → List ObjectEntry → List String × List ObjectEntry
  | [], dirs, entries => (dirs, entries)
  | item :: items, dirs, entries =>
    let key := itemKey dir item.name
    if isSkipped item.name then walkItems o dir items dirs entries
    else if item.isDir then
      walkItems o dir items (if o.recursive then dirs ++ [key] else dirs) entries
    else if o.keeps key then walkItems o dir items dirs (entries ++ [fileEntry dir item])
    else walkItems o dir items dirs entries

/-- The items of a directory in name order. -/
def byName (items : List DirItem) : List DirItem := items.insertionSort fun a b => a.name ≤ b.name

/-- The loop over the queue of directories, with how many more may be listed. -/
def walkLoop (o : WalkOptions) (listDir : String → Except String (List DirItem)) :
    ℕ → List String → List ObjectEntry → Except String (List ObjectEntry)
  | _, [], entries => .ok entries
  | 0, _ :: _, entries => .ok entries
  | n + 1, dir :: dirs, entries =>
    match listDir dir with
    | .error e => .error e
    | .ok items =>
      let r := walkItems o dir (byName items) dirs entries
      walkLoop o listDir n r.1 r.2

/-- `walk`: the files under a root, in key order, each key once, at most `max_files` of them. -/
def walk (o : WalkOptions) (listDir : String → Except String (List DirItem)) :
    Except String (List ObjectEntry) :=
  match walkLoop o listDir o.maxDirs [""] [] with
  | .error e => .error e
  | .ok entries =>
    .ok (((entries.insertionSort fun a b => a.key ≤ b.key).destutter fun a b => a.key ≠ b.key).take
      o.maxFiles)

theorem append_separator_inj {α : Type} {sep : α} {xs ys xs' ys' : List α} (hy : sep ∉ ys)
    (hy' : sep ∉ ys') (h : xs ++ sep :: ys = xs' ++ sep :: ys') : xs = xs' ∧ ys = ys' := by
  rcases List.append_eq_append_iff.mp h with ⟨as, hxs, htail⟩ | ⟨as, hxs, htail⟩
  · cases as with
    | nil => exact ⟨by simpa using hxs.symm, (List.cons.inj htail).2⟩
    | cons a as =>
      have hmem : sep ∈ ys := by
        rw [(List.cons.inj htail).2]
        simp
      exact absurd hmem hy
  · cases as with
    | nil => exact ⟨by simpa using hxs, (List.cons.inj htail).2.symm⟩
    | cons a as =>
      have hmem : sep ∈ ys' := by
        rw [(List.cons.inj htail).2]
        simp
      exact absurd hmem hy'

theorem itemKey_of_ne {dir : String} (h : dir ≠ "") (name : String) :
    (itemKey dir name).toList = dir.toList ++ '/' :: name.toList := by
  have hempty : dir.isEmpty = false := by simpa [String.isEmpty_iff] using h
  simp [itemKey, hempty]

theorem itemKey_inj {dir dir' name name' : String} (hn : '/' ∉ name.toList) (hn' : '/' ∉ name'.toList)
    (h : itemKey dir name = itemKey dir' name') : dir = dir' ∧ name = name' := by
  by_cases hd : dir = ""
  · by_cases hd' : dir' = ""
    · subst hd hd'
      exact ⟨rfl, h⟩
    · subst hd
      have hl : name.toList = dir'.toList ++ '/' :: name'.toList := by
        rw [← itemKey_of_ne hd' name', ← h]
        rfl
      exact absurd (by rw [hl]; simp) hn
  · by_cases hd' : dir' = ""
    · subst hd'
      have hl : name'.toList = dir.toList ++ '/' :: name.toList := by
        rw [← itemKey_of_ne hd name, h]
        rfl
      exact absurd (by rw [hl]; simp) hn'
    · have hl := congrArg String.toList h
      rw [itemKey_of_ne hd, itemKey_of_ne hd'] at hl
      obtain ⟨hdirs, hnames⟩ := append_separator_inj hn hn' hl
      exact ⟨String.toList_inj.mp hdirs, String.toList_inj.mp hnames⟩

theorem itemKey_ne_empty {dir name : String} (h : isSkipped name = false) : itemKey dir name ≠ "" := by
  intro hkey
  by_cases hd : dir = ""
  · subst hd
    have hname : name = "" := hkey
    subst hname
    cases h
  · have hl := itemKey_of_ne hd name
    rw [hkey] at hl
    simp at hl

/-! ## Trees -/

/-- A directory tree: what each directory holds, in any order, by its path relative to the root. -/
structure DirTree where
  items : String → List DirItem
  distinct : ∀ dir, ((items dir).map DirItem.name).Nodup
  plain : ∀ dir, ∀ item ∈ items dir, '/' ∉ item.name.toList

namespace DirTree

/-- Listing one directory of the tree. -/
def listDir (T : DirTree) (dir : String) : Except String (List DirItem) := .ok (T.items dir)

/-- `T'` only adds files and directories to `T`. -/
def Grows (T T' : DirTree) : Prop := ∀ dir, ∀ item ∈ T.items dir, item ∈ T'.items dir

variable (o : WalkOptions) (T : DirTree)

/-- The subdirectories of `dir` in name order, none when the walk does not go into them. -/
def subdirs (dir : String) : List String :=
  if o.recursive then
    ((byName (T.items dir)).filter fun item => !isSkipped item.name && item.isDir).map
      fun item => itemKey dir item.name
  else []

/-- The matching files of `dir`. -/
def filesIn (dir : String) : List ObjectEntry :=
  ((byName (T.items dir)).filter fun item =>
    !isSkipped item.name && !item.isDir && o.keeps (itemKey dir item.name)).map (fileEntry dir)

/-- The directories inside the cut: the first `max_dirs`, level by level in name order. -/
def listedDirs : List String :=
  (Traverse.levels (T.subdirs o) o.maxDirs [""]).take o.maxDirs

/-- The matching files of these directories. -/
def files : List ObjectEntry := (T.listedDirs o).flatMap (T.filesIn o)

/-- The files inside both cuts: of a listed directory, with fewer than `max_files` smaller keys. -/
def kept : List ObjectEntry :=
  (T.files o).filter fun e => (T.files o).countP (fun e' => decide (e'.key < e.key)) < o.maxFiles

/-- Their keys. -/
def keptKeys : Finset String := ((T.kept o).map ObjectEntry.key).toFinset

/-! ## A walk of a tree -/

variable {o T}

theorem walkItems_eq (dir : String) (items : List DirItem) (dirs : List String)
    (entries : List ObjectEntry) :
    walkItems o dir items dirs entries =
      (dirs ++ (if o.recursive then
          (items.filter fun item => !isSkipped item.name && item.isDir).map
            fun item => itemKey dir item.name
        else []),
        entries ++ (items.filter fun item =>
          !isSkipped item.name && !item.isDir && o.keeps (itemKey dir item.name)).map
            (fileEntry dir)) := by
  induction items generalizing dirs entries with
  | nil => simp [walkItems]
  | cons item items ih =>
    simp only [walkItems, ih]
    by_cases hskip : isSkipped item.name
    · simp [hskip]
    by_cases hdir : item.isDir
    · by_cases hrec : o.recursive <;> simp [hskip, hdir, hrec]
    by_cases hkeep : o.keeps (itemKey dir item.name)
    · simp [hskip, hdir, hkeep]
    · simp [hskip, hdir, hkeep]

theorem walkLoop_eq (n : ℕ) (dirs : List String) (entries : List ObjectEntry) :
    walkLoop o T.listDir n dirs entries =
      .ok (entries ++ (Traverse.visit (T.subdirs o) n dirs).flatMap (T.filesIn o)) := by
  induction n generalizing dirs entries with
  | zero => cases dirs <;> simp [walkLoop, Traverse.visit]
  | succ n ih =>
    cases dirs with
    | nil => simp [walkLoop, Traverse.visit]
    | cons dir dirs =>
      simp only [walkLoop, listDir, walkItems_eq, Traverse.visit, List.flatMap_cons]
      rw [ih, List.append_assoc]
      rfl

theorem walk_eq (o : WalkOptions) (T : DirTree) :
    walk o T.listDir = .ok (((((T.files o).insertionSort fun a b => a.key ≤ b.key).destutter
      fun a b => a.key ≠ b.key)).take o.maxFiles) := by
  unfold walk
  rw [walkLoop_eq, Traverse.visit_eq_take_levels]
  rfl

theorem mem_subdirs {dir sub : String} : sub ∈ T.subdirs o dir ↔ o.recursive = true ∧
    ∃ item ∈ T.items dir, isSkipped item.name = false ∧ item.isDir = true ∧
      itemKey dir item.name = sub := by
  unfold subdirs byName
  by_cases hrec : o.recursive
  · simp [hrec, and_assoc]
  · simp [hrec]

theorem mem_filesIn {dir : String} {e : ObjectEntry} : e ∈ T.filesIn o dir ↔
    ∃ item ∈ T.items dir, isSkipped item.name = false ∧ item.isDir = false ∧
      o.keeps (itemKey dir item.name) = true ∧ fileEntry dir item = e := by
  unfold filesIn byName
  simp [and_assoc]

theorem item_unique {dir : String} {a b : DirItem} (ha : a ∈ T.items dir) (hb : b ∈ T.items dir)
    (h : a.name = b.name) : a = b :=
  List.inj_on_of_nodup_map (T.distinct dir) ha hb h

theorem nodup_byName (dir : String) : (byName (T.items dir)).Nodup := by
  have hperm := List.perm_insertionSort (fun a b : DirItem => a.name ≤ b.name) (T.items dir)
  exact hperm.nodup_iff.mpr (List.Nodup.of_map _ (T.distinct dir))

theorem nodup_keys (dir : String) (p : DirItem → Bool) :
    (((byName (T.items dir)).filter p).map fun item => itemKey dir item.name).Nodup := by
  refine List.Nodup.map_on (fun a ha b hb h => ?_) ((T.nodup_byName dir).filter p)
  have ha : a ∈ T.items dir := (List.mem_insertionSort _).mp (List.mem_of_mem_filter ha)
  have hb : b ∈ T.items dir := (List.mem_insertionSort _).mp (List.mem_of_mem_filter hb)
  exact item_unique ha hb (itemKey_inj (T.plain dir a ha) (T.plain dir b hb) h).2

theorem nodup_listedDirs (o : WalkOptions) (T : DirTree) : (T.listedDirs o).Nodup := by
  refine (Traverse.nodup_levels ?_ ?_ ?_ o.maxDirs).sublist (List.take_sublist _ _)
  · intro a b c ha hb
    obtain ⟨-, i, hi, -, -, rfl⟩ := mem_subdirs.mp ha
    obtain ⟨-, j, hj, -, -, hij⟩ := mem_subdirs.mp hb
    exact (itemKey_inj (T.plain b j hj) (T.plain a i hi) hij).1.symm
  · intro a ha
    obtain ⟨-, i, -, hskip, -, hkey⟩ := mem_subdirs.mp ha
    exact itemKey_ne_empty hskip hkey
  · intro a
    unfold subdirs
    by_cases hrec : o.recursive
    · rw [if_pos hrec]
      exact nodup_keys a _
    · rw [if_neg hrec]
      exact List.nodup_nil

/-- **Every file of a tree has its own key.** -/
theorem nodup_files (o : WalkOptions) (T : DirTree) : ((T.files o).map ObjectEntry.key).Nodup := by
  unfold files
  rw [List.map_flatMap]
  refine List.nodup_flatMap.mpr ⟨fun dir _ => ?_, ?_⟩
  · unfold filesIn
    rw [List.map_map]
    exact nodup_keys dir _
  · refine (nodup_listedDirs o T).imp fun {a b} hne => ?_
    intro k hka hkb
    obtain ⟨e, he, rfl⟩ := List.mem_map.mp hka
    obtain ⟨e', he', hkey⟩ := List.mem_map.mp hkb
    obtain ⟨i, hi, -, -, -, rfl⟩ := mem_filesIn.mp he
    obtain ⟨j, hj, -, -, -, rfl⟩ := mem_filesIn.mp he'
    exact hne (itemKey_inj (T.plain b j hj) (T.plain a i hi) hkey).1.symm

theorem sorted_files (o : WalkOptions) (T : DirTree) :
    ((T.files o).insertionSort fun a b => a.key ≤ b.key).Pairwise fun a b => a.key < b.key := by
  have hle := Traverse.pairwise_insertionSort ObjectEntry.key (T.files o)
  have hperm := List.perm_insertionSort (fun a b : ObjectEntry => a.key ≤ b.key) (T.files o)
  have hne : ((T.files o).insertionSort fun a b => a.key ≤ b.key).Pairwise
      fun a b => a.key ≠ b.key :=
    List.pairwise_map.mp ((hperm.map ObjectEntry.key).nodup_iff.mpr (nodup_files o T))
  exact (hle.and hne).imp fun {a b} h => lt_of_le_of_ne h.1 h.2

theorem walk_sorted (o : WalkOptions) (T : DirTree) :
    walk o T.listDir =
      .ok (((T.files o).insertionSort fun a b => a.key ≤ b.key).take o.maxFiles) := by
  rw [walk_eq, List.destutter_of_isChain]
  apply List.Pairwise.isChain
  exact (sorted_files o T).imp fun {a b} hlt => ne_of_lt hlt

/-- **What a walk lists**: exactly the files inside both cuts, in key order. -/
theorem mem_walk {l : List ObjectEntry} (h : walk o T.listDir = .ok l) :
    (∀ e, e ∈ l ↔ e ∈ T.kept o) ∧ l.Pairwise fun a b => a.key < b.key := by
  have hsorted := sorted_files o T
  have hperm := List.perm_insertionSort (fun a b : ObjectEntry => a.key ≤ b.key) (T.files o)
  rw [walk_sorted] at h
  obtain rfl := Except.ok.inj h
  refine ⟨fun e => ?_, hsorted.sublist (List.take_sublist _ _)⟩
  rw [Traverse.mem_take_iff hsorted, hperm.countP_eq, hperm.mem_iff]
  unfold kept
  rw [List.mem_filter]
  simp

end DirTree

/-! ## Deletions a poll reports -/

namespace Inventory

/-- The keys a listing has under another digest than the confirmed one, or the confirmed one not at
all: what is created or modified. -/
def updated (X : Externs) (inv : Inventory) (listing : List ObjectEntry) : Finset String :=
  (disagree inv.confirmed (target X listing)).filter fun k => (target X listing)[k]? ≠ none

section Deletions

variable {X : Externs} {inv : Inventory}

theorem length_listed (h : inv.AtRest) (now : Nanos) (listing : List ObjectEntry) :
    ((currentOf listing).toList.filterMap fun ke => (inv.live now).listedChange X ke.1 ke.2).length =
      (inv.updated X listing).card := by
  -- With quiet removals the listed changes are all of them.
  have hquiet : { inv with quietRemovals := true }.AtRest :=
    ⟨{ h.wf with quiet := fun _ p hp => by rw [h.pending] at hp; cases hp }, h.pending⟩
  have hlen := length_changes_rest (X := X) hquiet now listing
  have hdiffering : { inv with quietRemovals := true }.differing X listing = inv.updated X listing := by
    unfold differing updated
    simp
  rw [hdiffering] at hlen
  rw [← hlen]
  have hchanges : (live now { inv with quietRemovals := true }).changes X (currentOf listing) =
      (currentOf listing).toList.filterMap (fun ke => (inv.live now).listedChange X ke.1 ke.2) ++ [] :=
    rfl
  rw [hchanges, List.append_nil]

theorem op_of_listed {k : String} {entry : ObjectEntry} {c : Change}
    (h : inv.listedChange X k entry = some c) : c.op ≠ .deleted := by
  obtain ⟨-, -, rfl⟩ := listedChange_eq_some.mp h
  cases inv.confirmed[k]? <;> simp [opOf]

theorem exists_mem_take_map {α β : Type} (f : α → β) (l : List α) (n : ℕ) :
    (∃ b, b ∈ (l.map f).take n) ↔ 0 < n ∧ ∃ a, a ∈ l := by
  cases l with
  | nil => simp
  | cons a l =>
    cases n with
    | zero => simp
    | succ n => exact iff_of_true ⟨f a, List.mem_cons_self⟩ ⟨n.succ_pos, a, List.mem_cons_self⟩

/-- **When a poll at rest reports a deletion**: removals are reported, a confirmed key left the
listing, and the window holds more than what was created or modified. -/
theorem deletes_iff (h : inv.AtRest) (hb : inv.baseline ≠ .silent) (now : Nanos)
    (listing : List ObjectEntry) :
    (∃ e ∈ (inv.pollCore X now listing).2, e.change.op = .deleted) ↔
      inv.quietRemovals = false ∧
        (∃ k : String, inv.confirmed[k]? ≠ none ∧ (target X listing)[k]? = none) ∧
        (inv.updated X listing).card < inv.options.maxInFlight := by
  have hchanges := (pollCore_compare X now listing hb).1
  have hroom : (inv.live now).room = inv.options.maxInFlight := room_rest h now
  have hemits : (∃ e ∈ (inv.pollCore X now listing).2, e.change.op = .deleted) ↔
      ∃ c ∈ inv.taken X now listing, c.op = .deleted := by
    rw [← hchanges]
    simp
  rw [hemits, taken, hroom, changes, List.take_append, length_listed h now listing]
  have hlisted : ∀ c ∈ (((currentOf listing).toList.filterMap fun ke =>
      (inv.live now).listedChange X ke.1 ke.2).take inv.options.maxInFlight), c.op ≠ .deleted := by
    intro c hc
    obtain ⟨ke, -, hke⟩ := List.mem_filterMap.mp (List.mem_of_mem_take hc)
    exact op_of_listed hke
  rw [show (inv.live now).quietRemovals = inv.quietRemovals from rfl]
  have hdeletions := exists_mem_take_map (inv.live now).deletion
    ((inv.live now).gone (currentOf listing))
    (inv.options.maxInFlight - (inv.updated X listing).card)
  simp only [mem_gone_rest (X := X) h] at hdeletions
  constructor
  · rintro ⟨c, hc, hop⟩
    rcases List.mem_append.mp hc with hc | hc
    · exact absurd hop (hlisted c hc)
    · by_cases hquiet : inv.quietRemovals = true
      · rw [if_pos hquiet, List.take_nil] at hc
        cases hc
      · rw [if_neg hquiet] at hc
        obtain ⟨hpos, hgone⟩ := hdeletions.mp ⟨c, hc⟩
        exact ⟨Bool.not_eq_true _ |>.mp hquiet, hgone, by omega⟩
  · rintro ⟨hquiet, hgone, hroom⟩
    rw [if_neg (by simp [hquiet])]
    obtain ⟨c, hc⟩ := hdeletions.mpr ⟨by omega, hgone⟩
    obtain ⟨k, -, hk⟩ := List.mem_map.mp (List.mem_of_mem_take hc)
    exact ⟨c, List.mem_append_right _ hc, by rw [← hk]; rfl⟩

end Deletions

theorem currentOf_eq_some {l : List ObjectEntry} (hl : l.Pairwise fun a b => a.key < b.key) {k : String}
    {e : ObjectEntry} : (currentOf l)[k]? = some e ↔ e ∈ l ∧ e.key = k := by
  constructor
  · intro h
    obtain ⟨e', he', heq⟩ := List.mem_map.mp (mem_of_getElem?_ofList h)
    obtain ⟨hk, rfl⟩ := Prod.mk.inj heq
    exact ⟨he', hk⟩
  · rintro ⟨he, rfl⟩
    refine Std.ExtTreeMap.getElem?_ofList_of_mem Std.ReflCmp.compare_self ?_
      (List.mem_map_of_mem (f := fun e : ObjectEntry => (e.key, e)) he)
    refine List.pairwise_map.mpr (hl.imp fun {a b} hlt heq => ?_)
    exact ne_of_lt hlt (Std.LawfulEqCmp.eq_of_compare heq)

end Inventory

/-! ## A tree that grows -/

namespace DirTree

open Inventory

variable {o : WalkOptions} {T T' : DirTree}

theorem mem_kept {e : ObjectEntry} (he : e ∈ T.kept o) :
    ∃ dir, ∃ item ∈ T.items dir, fileEntry dir item = e := by
  obtain ⟨dir, -, hin⟩ := List.mem_flatMap.mp (List.mem_of_mem_filter he)
  obtain ⟨item, hitem, -, -, -, heq⟩ := mem_filesIn.mp hin
  exact ⟨dir, item, hitem, heq⟩

/-- A file of a tree is the same file in a tree that grew from it. -/
theorem kept_unique (hgrows : T.Grows T') {e e' : ObjectEntry} (he : e ∈ T.kept o)
    (he' : e' ∈ T'.kept o) (hkey : e.key = e'.key) : e = e' := by
  obtain ⟨dir, item, hitem, rfl⟩ := mem_kept he
  obtain ⟨dir', item', hitem', rfl⟩ := mem_kept he'
  have hgrown := hgrows dir item hitem
  obtain ⟨rfl, hname⟩ := itemKey_inj (T'.plain dir item hgrown) (T'.plain dir' item' hitem') hkey
  rw [item_unique hgrown hitem' hname]

section Target

variable {X : Externs} {l : List ObjectEntry}

theorem target_walk (h : walk o T.listDir = .ok l) {k d : String} :
    (target X l)[k]? = some d ↔ ∃ e ∈ T.kept o, e.key = k ∧ e.digest X = d := by
  obtain ⟨hmem, hsorted⟩ := mem_walk h
  rw [target, getElem?_digestsOf, Option.map_eq_some_iff]
  constructor
  · rintro ⟨e, he, rfl⟩
    obtain ⟨hel, hk⟩ := (currentOf_eq_some hsorted).mp he
    exact ⟨e, (hmem e).mp hel, hk, rfl⟩
  · rintro ⟨e, he, hk, rfl⟩
    exact ⟨e, (currentOf_eq_some hsorted).mpr ⟨(hmem e).mpr he, hk⟩, rfl⟩

theorem target_walk_eq_none (h : walk o T.listDir = .ok l) {k : String} :
    (target X l)[k]? = none ↔ k ∉ T.keptKeys o := by
  unfold keptKeys
  rw [List.mem_toFinset, List.mem_map]
  constructor
  · rintro hnone ⟨e, he, hk⟩
    have hsome := (target_walk (X := X) h).mpr ⟨e, he, hk, rfl⟩
    rw [hnone] at hsome
    cases hsome
  · intro hk
    cases ht : (target X l)[k]? with
    | none => rfl
    | some d =>
      obtain ⟨e, he, hek, -⟩ := (target_walk h).mp ht
      exact absurd ⟨e, he, hek⟩ hk

end Target

theorem updated_walk {X : Externs} {inv : Inventory} {l l' : List ObjectEntry}
    (hgrows : T.Grows T') (hl : walk o T.listDir = .ok l) (hl' : walk o T'.listDir = .ok l')
    (hconf : inv.confirmed = target X l) :
    inv.updated X l' = T'.keptKeys o \ T.keptKeys o := by
  ext k
  unfold updated
  rw [Finset.mem_filter, mem_disagree, hconf, Finset.mem_sdiff, ← target_walk_eq_none (X := X) hl,
    ← not_not (a := k ∈ T'.keptKeys o), ← target_walk_eq_none (X := X) hl']
  constructor
  · rintro ⟨hne, hsome'⟩
    refine ⟨hsome', ?_⟩
    -- A key both walks list is the same file, under the same digest.
    by_contra hsome
    obtain ⟨d, hd⟩ := Option.ne_none_iff_exists'.mp hsome
    obtain ⟨d', hd'⟩ := Option.ne_none_iff_exists'.mp hsome'
    obtain ⟨e, he, hek, rfl⟩ := (target_walk hl).mp hd
    obtain ⟨e', he', hek', rfl⟩ := (target_walk hl').mp hd'
    rw [kept_unique hgrows he he' (hek.trans hek'.symm)] at hd
    exact hne (hd.trans hd'.symm)
  · rintro ⟨hsome', hnone⟩
    exact ⟨fun heq => hsome' (heq.symm.trans hnone), hsome'⟩

/-- **Deletions reported of a tree that only grew.** An inventory that confirmed a walk of `T`, with
nothing in flight, is polled with a walk of `T'`, which only adds to `T`. The poll reports no deletion
if and only if every file inside the cuts of `T` is inside those of `T'`, or removals are quiet, or
what the cuts gained fills the window. -/
theorem no_false_deletion_iff {X : Externs} {inv₀ : Inventory} {h : History} {l l' : List ObjectEntry}
    (h₀ : Started X inv₀) (hr : Reach (History.Steps X) anyStep (History.start inv₀) h)
    (hb : h.inv.baseline ≠ .silent) (hp : h.inv.pending = []) (hgrows : T.Grows T')
    (hl : walk o T.listDir = .ok l) (hl' : walk o T'.listDir = .ok l')
    (hconf : h.inv.confirmed = target X l) (now : Nanos) :
    (∀ e ∈ (h.inv.pollCore X now l').2, e.change.op ≠ .deleted) ↔
      T.keptKeys o ⊆ T'.keptKeys o ∨ h.inv.quietRemovals = true ∨
        h.inv.options.maxInFlight ≤ (T'.keptKeys o \ T.keptKeys o).card := by
  have hrest : h.inv.AtRest := ⟨(History.inv_of_reach h₀ hr).wf, hp⟩
  have hdeletes := deletes_iff (X := X) hrest hb now l'
  rw [updated_walk hgrows hl hl' hconf] at hdeletes
  have hlost : (∃ k : String, h.inv.confirmed[k]? ≠ none ∧ (target X l')[k]? = none) ↔
      ¬ T.keptKeys o ⊆ T'.keptKeys o := by
    rw [Finset.not_subset, hconf]
    refine exists_congr fun k => ?_
    rw [target_walk_eq_none hl', ne_eq, target_walk_eq_none hl, not_not]
  rw [hlost] at hdeletes
  have hnone : (∀ e ∈ (h.inv.pollCore X now l').2, e.change.op ≠ .deleted) ↔
      ¬ ∃ e ∈ (h.inv.pollCore X now l').2, e.change.op = .deleted := by
    simp
  rw [hnone, hdeletes]
  by_cases hquiet : h.inv.quietRemovals = true
  · simp [hquiet]
  · by_cases hsub : T.keptKeys o ⊆ T'.keptKeys o
    · simp [hsub]
    · simp [hsub, hquiet]

/-- A root with some files. -/
def flat (names : List String) (hnodup : names.Nodup) (hplain : ∀ name ∈ names, '/' ∉ name.toList) :
    DirTree where
  items dir := if dir = "" then names.map fun name => { name := name } else []
  distinct dir := by
    by_cases hdir : dir = ""
    · rw [if_pos hdir, List.map_map]
      exact (List.map_id names).symm ▸ hnodup
    · rw [if_neg hdir]
      exact List.nodup_nil
  plain dir item hitem := by
    by_cases hdir : dir = ""
    · rw [if_pos hdir] at hitem
      obtain ⟨name, hname, rfl⟩ := List.mem_map.mp hitem
      exact hplain name hname
    · rw [if_neg hdir] at hitem
      cases hitem

/-- One file, and the same one with another before it in key order. -/
def oneFile : DirTree := flat ["b.csv"] (by decide) (by decide)

def twoFiles : DirTree := flat ["b.csv", "a.csv"] (by decide) (by decide)

theorem oneFile_grows : oneFile.Grows twoFiles := by
  intro dir item hitem
  by_cases hdir : dir = ""
  · subst hdir
    exact List.mem_cons.mpr (.inl (List.mem_singleton.mp hitem))
  · have hnil : oneFile.items dir = [] := if_neg hdir
    rw [hnil] at hitem
    cases hitem

/-- Up to `n` files. -/
def cutAt (n : ℕ) : WalkOptions := ⟨true, none, n, 10⟩

theorem no_false_deletion_iff_roomForBoth :
    ∃ l l', walk (cutAt 2) oneFile.listDir = .ok l ∧ walk (cutAt 2) twoFiles.listDir = .ok l' ∧
      l'.map ObjectEntry.key = ["a.csv", "b.csv"] ∧
      ∀ e ∈ (((History.start plainInventory).run plainExterns [.poll 0 l]).inv.pollCore plainExterns 1
        l').2, e.change.op ≠ .deleted := by
  refine ⟨_, _, walk_eq _ _, walk_eq _ _, by decide +kernel, ?_⟩
  refine (no_false_deletion_iff plainInventory_started (History.reach_run _ _ _) ?_ ?_
    oneFile_grows (walk_eq (cutAt 2) oneFile) (walk_eq (cutAt 2) twoFiles) ?_ 1).mpr (.inl ?_)
  · decide +kernel
  · rfl
  · rfl
  · decide +kernel

/-- **A new file is reported as a deletion**: with room for one file, the new one takes the place of
the one that was there. -/
theorem addition_reported_as_deletion :
    ¬ ∀ (X : Externs) (o : WalkOptions) (T T' : DirTree) (inv₀ : Inventory) (h : History)
      (l l' : List ObjectEntry) (now : Nanos), Started X inv₀ →
      Reach (History.Steps X) anyStep (History.start inv₀) h → h.inv.baseline ≠ .silent →
      h.inv.pending = [] → T.Grows T' → walk o T.listDir = .ok l → walk o T'.listDir = .ok l' →
      h.inv.confirmed = target X l → ∀ e ∈ (h.inv.pollCore X now l').2, e.change.op ≠ .deleted := by
  intro hclaim
  have hnone := hclaim plainExterns (cutAt 1) oneFile twoFiles plainInventory
    ((History.start plainInventory).run plainExterns [.poll 0 [{ key := "b.csv" }]])
    [{ key := "b.csv" }] [{ key := "a.csv" }] 1 plainInventory_started (History.reach_run _ _ _)
    (by decide +kernel) rfl oneFile_grows rfl rfl rfl
  exact absurd hnone (by decide +kernel)

end DirTree

end McpgSdk

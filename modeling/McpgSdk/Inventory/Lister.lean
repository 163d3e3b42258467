import McpgSdk.Inventory.Walk

/-!
# A walk equals its reference

`walk` is given a function that lists one directory at a time, which may fail, and which may describe a
tree without an end. What it lists is told by levels: the directories level by level in name order, cut
at `max_dirs`, and the matching files of these in key order, cut at `max_files`.

* `Lister`: listing one directory, names distinct and without `/`;
* `traceLoop`: the loop of `walk` with the directories it lists, in order;
* `traceLoop_listed`, `traceLoop_failed`: where every directory is listed, and where one is not;
* `walk_perm`: the order of the items within a directory does not matter;
* `walkCalls_prefix`, `walk_error_iff`, `walk_of_ok`: what a walk lists, when it fails, what it returns;
* **`walk_reference`**: the calls, the error and the result of a walk.
-/

set_option autoImplicit false

namespace McpgSdk

/-- Listing one directory of a store; a listing may fail. -/
structure Lister where
  listDir : String → Except String (List DirItem)
  distinct : ∀ dir items, listDir dir = .ok items → (items.map DirItem.name).Nodup
  plain : ∀ dir items, listDir dir = .ok items → ∀ item ∈ items, '/' ∉ item.name.toList

/-- The loop of `walk` together with the directories it lists, in order. -/
def traceLoop (o : WalkOptions) (listDir : String → Except String (List DirItem)) :
    ℕ → List String → List ObjectEntry → List String × Except String (List ObjectEntry)
  | _, [], entries => ([], .ok entries)
  | 0, _ :: _, entries => ([], .ok entries)
  | n + 1, dir :: dirs, entries =>
    match listDir dir with
    | .error e => ([dir], .error e)
    | .ok items =>
      let r := walkItems o dir (byName items) dirs entries
      let t := traceLoop o listDir n r.1 r.2
      (dir :: t.1, t.2)

/-- The directories `walk` lists, in order. -/
def walkCalls (o : WalkOptions) (listDir : String → Except String (List DirItem)) : List String :=
  (traceLoop o listDir o.maxDirs [""] []).1

theorem traceLoop_snd (o : WalkOptions) (listDir : String → Except String (List DirItem)) (n : ℕ)
    (dirs : List String) (entries : List ObjectEntry) :
    (traceLoop o listDir n dirs entries).2 = walkLoop o listDir n dirs entries := by
  induction n generalizing dirs entries with
  | zero => cases dirs <;> rfl
  | succ n ih =>
    cases dirs with
    | nil => rfl
    | cons dir dirs =>
      rw [traceLoop, walkLoop]
      cases listDir dir with
      | error e => rfl
      | ok items => exact ih _ _

namespace Lister

/-- What the directory holds: nothing when it cannot be listed. -/
def items (L : Lister) (dir : String) : List DirItem := (L.listDir dir).toOption.getD []

theorem items_of_ok {L : Lister} {dir : String} {items : List DirItem}
    (h : L.listDir dir = .ok items) : L.items dir = items := by
  rw [Lister.items, h]
  rfl

theorem items_of_error {L : Lister} {dir error : String} (h : L.listDir dir = .error error) :
    L.items dir = [] := by
  rw [Lister.items, h]
  rfl

/-- The tree the listings describe. -/
def tree (L : Lister) : DirTree where
  items := L.items
  distinct dir := by
    cases h : L.listDir dir with
    | error e =>
      rw [items_of_error h]
      exact List.nodup_nil
    | ok items =>
      rw [items_of_ok h]
      exact L.distinct dir items h
  plain dir item hitem := by
    cases h : L.listDir dir with
    | error e =>
      rw [items_of_error h] at hitem
      cases hitem
    | ok items =>
      rw [items_of_ok h] at hitem
      exact L.plain dir items h item hitem

variable {o : WalkOptions} {L : Lister}

/-! ## The loop -/

theorem traceLoop_of_ok {dir : String} {items : List DirItem} (h : L.listDir dir = .ok items) (n : ℕ)
    (dirs : List String) (entries : List ObjectEntry) :
    traceLoop o L.listDir (n + 1) (dir :: dirs) entries =
      (dir :: (traceLoop o L.listDir n (dirs ++ L.tree.subdirs o dir)
          (entries ++ L.tree.filesIn o dir)).1,
        (traceLoop o L.listDir n (dirs ++ L.tree.subdirs o dir)
          (entries ++ L.tree.filesIn o dir)).2) := by
  have hitems : L.tree.items dir = items := items_of_ok h
  rw [traceLoop, h, DirTree.subdirs, DirTree.filesIn, hitems]
  simp only [DirTree.walkItems_eq]

theorem traceLoop_listed {n : ℕ} {dirs : List String} (entries : List ObjectEntry)
    (h : ∀ d ∈ Traverse.visit (L.tree.subdirs o) n dirs, ∃ items, L.listDir d = .ok items) :
    traceLoop o L.listDir n dirs entries =
      (Traverse.visit (L.tree.subdirs o) n dirs,
        .ok (entries ++ (Traverse.visit (L.tree.subdirs o) n dirs).flatMap (L.tree.filesIn o))) := by
  induction n generalizing dirs entries with
  | zero => cases dirs <;> simp [traceLoop, Traverse.visit]
  | succ n ih =>
    cases dirs with
    | nil => simp [traceLoop, Traverse.visit]
    | cons dir dirs =>
      rw [Traverse.visit] at h ⊢
      obtain ⟨items, hitems⟩ := h dir List.mem_cons_self
      rw [traceLoop_of_ok hitems, ih _ fun d hd => h d (List.mem_cons_of_mem _ hd), List.flatMap_cons,
        List.append_assoc]

theorem traceLoop_failed {n : ℕ} {dirs front back : List String} {d error : String}
    (entries : List ObjectEntry)
    (hvisit : Traverse.visit (L.tree.subdirs o) n dirs = front ++ d :: back)
    (hfront : ∀ d' ∈ front, ∃ items, L.listDir d' = .ok items) (hd : L.listDir d = .error error) :
    traceLoop o L.listDir n dirs entries = (front ++ [d], .error error) := by
  induction n generalizing dirs entries front with
  | zero => cases front <;> cases hvisit
  | succ n ih =>
    cases dirs with
    | nil => cases front <;> cases hvisit
    | cons dir dirs =>
      rw [Traverse.visit] at hvisit
      cases front with
      | nil =>
        obtain ⟨rfl, -⟩ := List.cons.inj hvisit
        rw [traceLoop, hd]
        rfl
      | cons d' front =>
        obtain ⟨rfl, hrest⟩ := List.cons.inj hvisit
        obtain ⟨items, hitems⟩ := hfront dir List.mem_cons_self
        rw [traceLoop_of_ok hitems, ih _ hrest fun d' hd' => hfront d' (List.mem_cons_of_mem _ hd')]
        rfl

theorem listed_or_failed (o : WalkOptions) (L : Lister) :
    (∀ d ∈ L.tree.listedDirs o, ∃ items, L.listDir d = .ok items) ∨
      ∃ front d back error, L.tree.listedDirs o = front ++ d :: back ∧
        (∀ d' ∈ front, ∃ items, L.listDir d' = .ok items) ∧ L.listDir d = .error error := by
  induction L.tree.listedDirs o with
  | nil => exact .inl (List.forall_mem_nil _)
  | cons dir dirs ih =>
    cases hdir : L.listDir dir with
    | error e => exact .inr ⟨[], dir, dirs, e, rfl, List.forall_mem_nil _, hdir⟩
    | ok items =>
      have hcons : ∀ {ds : List String}, (∀ d ∈ ds, ∃ items, L.listDir d = .ok items) →
          ∀ d ∈ dir :: ds, ∃ items, L.listDir d = .ok items := by
        intro ds hds d hd
        rcases List.mem_cons.mp hd with rfl | hd
        · exact ⟨items, hdir⟩
        · exact hds d hd
      rcases ih with hall | ⟨front, d, back, e, rfl, hfront, hd⟩
      · exact .inl (hcons hall)
      · exact .inr ⟨dir :: front, d, back, e, rfl, hcons hfront, hd⟩

/-! ## The order within a directory -/

/-- The same listing: the same items in any order, or the same error. -/
inductive SameListing : Except String (List DirItem) → Except String (List DirItem) → Prop
  | listed {items items' : List DirItem} (h : items.Perm items') : SameListing (.ok items) (.ok items')
  | failed (error : String) : SameListing (.error error) (.error error)

/-- Items in name order do not tell the order they were listed in. -/
theorem byName_perm {items items' : List DirItem} (h : items.Perm items')
    (hnodup : (items.map DirItem.name).Nodup) : byName items = byName items' := by
  have hperm := List.perm_insertionSort (fun a b : DirItem => a.name ≤ b.name) items
  have hperm' := List.perm_insertionSort (fun a b : DirItem => a.name ≤ b.name) items'
  refine List.Perm.eq_of_pairwise ?_ (Traverse.pairwise_insertionSort DirItem.name items)
    (Traverse.pairwise_insertionSort DirItem.name items') ((hperm.trans h).trans hperm'.symm)
  intro a b ha hb hab hba
  have ha : a ∈ items := hperm.mem_iff.mp ha
  have hb : b ∈ items := h.mem_iff.mpr (hperm'.mem_iff.mp hb)
  exact List.inj_on_of_nodup_map hnodup ha hb (le_antisymm hab hba)

theorem traceLoop_perm {L' : Lister} (h : ∀ dir, SameListing (L.listDir dir) (L'.listDir dir)) (n : ℕ)
    (dirs : List String) (entries : List ObjectEntry) :
    traceLoop o L'.listDir n dirs entries = traceLoop o L.listDir n dirs entries := by
  induction n generalizing dirs entries with
  | zero => cases dirs <;> rfl
  | succ n ih =>
    cases dirs with
    | nil => rfl
    | cons dir dirs =>
      have hsame := h dir
      have hdistinct := L.distinct dir
      rw [traceLoop, traceLoop]
      generalize L.listDir dir = r, L'.listDir dir = r' at hsame hdistinct
      cases hsame with
      | listed hperm => simp only [byName_perm hperm (hdistinct _ rfl), ih]
      | failed error => rfl

/-- **The order of the items within a directory does not matter.** -/
theorem walk_perm {L' : Lister} (h : ∀ dir, SameListing (L.listDir dir) (L'.listDir dir)) :
    walk o L'.listDir = walk o L.listDir := by
  unfold walk
  rw [← traceLoop_snd, ← traceLoop_snd, traceLoop_perm h]

/-! ## The reference -/

theorem visit_root (o : WalkOptions) (L : Lister) :
    Traverse.visit (L.tree.subdirs o) o.maxDirs [""] = L.tree.listedDirs o :=
  Traverse.visit_eq_take_levels _ _ _

theorem walk_listed (h : ∀ d ∈ L.tree.listedDirs o, ∃ items, L.listDir d = .ok items) :
    walkCalls o L.listDir = L.tree.listedDirs o ∧ walk o L.listDir = walk o L.tree.listDir := by
  rw [← visit_root] at h
  have htrace := traceLoop_listed [] h
  rw [visit_root] at htrace
  refine ⟨congrArg Prod.fst htrace, ?_⟩
  rw [DirTree.walk_eq]
  unfold walk
  rw [← traceLoop_snd, htrace]
  rfl

theorem walk_failed {front back : List String} {d error : String}
    (hdirs : L.tree.listedDirs o = front ++ d :: back)
    (hfront : ∀ d' ∈ front, ∃ items, L.listDir d' = .ok items) (hd : L.listDir d = .error error) :
    walkCalls o L.listDir = front ++ [d] ∧ walk o L.listDir = .error error := by
  rw [← visit_root] at hdirs
  have htrace := traceLoop_failed [] hdirs hfront hd
  refine ⟨congrArg Prod.fst htrace, ?_⟩
  unfold walk
  rw [← traceLoop_snd, htrace]

theorem listedDirs_flat (h : o.recursive = false) (T : DirTree) :
    T.listedDirs o = [""].take o.maxDirs := by
  have hsubdirs : T.subdirs o = fun _ => [] := by
    funext dir
    rw [DirTree.subdirs, h]
    rfl
  rw [DirTree.listedDirs, ← Traverse.visit_eq_take_levels, hsubdirs]
  cases o.maxDirs with
  | zero => rfl
  | succ n => cases n <;> rfl

theorem not_isSkipped {name : String} :
    isSkipped name = false ↔ name ≠ "" ∧ name ≠ "." ∧ name ≠ ".." := by
  simp [isSkipped, and_assoc]

theorem mem_files {e : ObjectEntry} :
    e ∈ L.tree.files o ↔ ∃ dir ∈ L.tree.listedDirs o, ∃ items, L.listDir dir = .ok items ∧
      ∃ item ∈ items, (item.name ≠ "" ∧ item.name ≠ "." ∧ item.name ≠ "..") ∧ item.isDir = false ∧
        o.keeps (itemKey dir item.name) = true ∧ fileEntry dir item = e := by
  unfold DirTree.files
  rw [List.mem_flatMap]
  refine exists_congr fun dir => and_congr_right fun _ => ?_
  rw [DirTree.mem_filesIn]
  simp only [not_isSkipped]
  have htree : L.tree.items dir = L.items dir := rfl
  rw [htree]
  cases hdir : L.listDir dir with
  | error e => simp [items_of_error hdir]
  | ok items => simp [items_of_ok hdir]

theorem walkCalls_prefix (o : WalkOptions) (L : Lister) :
    walkCalls o L.listDir <+: L.tree.listedDirs o := by
  rcases listed_or_failed o L with hlisted | ⟨front, d, back, error, hdirs, hfront, hd⟩
  · rw [(walk_listed hlisted).1]
  · rw [(walk_failed hdirs hfront hd).1, hdirs]
    exact ⟨back, (List.append_cons front d back).symm⟩

theorem walk_error_iff (o : WalkOptions) (L : Lister) :
    (∃ error, walk o L.listDir = .error error) ↔
      ∃ d ∈ L.tree.listedDirs o, ∃ error, L.listDir d = .error error := by
  rcases listed_or_failed o L with hlisted | ⟨front, d, back, error, hdirs, hfront, hd⟩
  · refine iff_of_false ?_ ?_
    · rintro ⟨error, herror⟩
      rw [(walk_listed hlisted).2, DirTree.walk_sorted] at herror
      cases herror
    · rintro ⟨d, hd, error, herror⟩
      obtain ⟨items, hitems⟩ := hlisted d hd
      rw [hitems] at herror
      cases herror
  · refine iff_of_true ⟨error, (walk_failed hdirs hfront hd).2⟩ ⟨d, ?_, error, hd⟩
    rw [hdirs]
    exact List.mem_append_right _ List.mem_cons_self

theorem first_of_walk_error {error : String} (h : walk o L.listDir = .error error) :
    ∃ front d back, L.tree.listedDirs o = front ++ d :: back ∧
      (∀ d' ∈ front, ∃ items, L.listDir d' = .ok items) ∧ L.listDir d = .error error := by
  rcases listed_or_failed o L with hlisted | ⟨front, d, back, error', hdirs, hfront, hd⟩
  · rw [(walk_listed hlisted).2, DirTree.walk_sorted] at h
    cases h
  · rw [(walk_failed hdirs hfront hd).2] at h
    obtain rfl := Except.error.inj h
    exact ⟨front, d, back, hdirs, hfront, hd⟩

/-- A walk that does not fail lists every directory of the cut, and the first of their files. -/
theorem walk_of_ok {l : List ObjectEntry} (h : walk o L.listDir = .ok l) :
    walkCalls o L.listDir = L.tree.listedDirs o ∧
      l = ((L.tree.files o).insertionSort fun a b => a.key ≤ b.key).take o.maxFiles := by
  rcases listed_or_failed o L with hlisted | ⟨front, d, back, error, hdirs, hfront, hd⟩
  · obtain ⟨hcalls, hwalk⟩ := walk_listed hlisted
    rw [hwalk, DirTree.walk_sorted] at h
    exact ⟨hcalls, (Except.ok.inj h).symm⟩
  · rw [(walk_failed hdirs hfront hd).2] at h
    cases h

/-- **A walk equals its reference**, for every tree a lister may describe, endless ones included. It
lists the directories of the cut in order, none twice, and stops at the first it cannot list: it fails
exactly when there is one, with that error. Otherwise it lists the first `max_files`, in key order, of
the matching files of all of them. The order in which a directory lists its items is not seen. -/
theorem walk_reference (o : WalkOptions) (L : Lister) :
    (walkCalls o L.listDir <+: L.tree.listedDirs o ∧ (walkCalls o L.listDir).length ≤ o.maxDirs ∧
      (walkCalls o L.listDir).Nodup) ∧
    (o.recursive = false → L.tree.listedDirs o = [""].take o.maxDirs) ∧
    ((∃ error, walk o L.listDir = .error error) ↔
      ∃ d ∈ L.tree.listedDirs o, ∃ error, L.listDir d = .error error) ∧
    (∀ error, walk o L.listDir = .error error → ∃ front d back,
      L.tree.listedDirs o = front ++ d :: back ∧
      (∀ d' ∈ front, ∃ items, L.listDir d' = .ok items) ∧ L.listDir d = .error error) ∧
    (∀ l, walk o L.listDir = .ok l → walkCalls o L.listDir = L.tree.listedDirs o ∧
      ∃ files : List ObjectEntry, l = files.take o.maxFiles ∧
        files.Pairwise (fun a b => a.key < b.key) ∧
        ∀ e, e ∈ files ↔ ∃ dir ∈ L.tree.listedDirs o, ∃ items, L.listDir dir = .ok items ∧
          ∃ item ∈ items, (item.name ≠ "" ∧ item.name ≠ "." ∧ item.name ≠ "..") ∧
            item.isDir = false ∧ o.keeps (itemKey dir item.name) = true ∧ fileEntry dir item = e) ∧
    (∀ L' : Lister, (∀ dir, SameListing (L.listDir dir) (L'.listDir dir)) →
      walk o L'.listDir = walk o L.listDir) := by
  have hfront := walkCalls_prefix o L
  refine ⟨⟨hfront, ?_, ?_⟩, fun hflat => listedDirs_flat hflat L.tree, walk_error_iff o L,
    fun error => first_of_walk_error, fun l hl => ?_, fun L' hsame => walk_perm hsame⟩
  · calc (walkCalls o L.listDir).length ≤ (L.tree.listedDirs o).length := hfront.length_le
      _ ≤ o.maxDirs := List.length_take_le _ _
  · exact (DirTree.nodup_listedDirs o L.tree).sublist hfront.sublist
  · obtain ⟨hcalls, rfl⟩ := walk_of_ok hl
    refine ⟨hcalls, _, rfl, DirTree.sorted_files o L.tree, fun e => ?_⟩
    rw [List.mem_insertionSort, mem_files]

/-- A root with a file and a directory that may not be listed. -/
def lockedBox : Lister where
  listDir dir :=
    if dir = "" then .ok [{ name := "box", isDir := true }, { name := "a.csv" }]
    else .error "permission denied"
  distinct dir items h := by
    split_ifs at h
    cases h
    decide
  plain dir items h := by
    split_ifs at h
    cases h
    decide

theorem walk_reference_lockedBox :
    walkCalls ⟨true, none, 10, 10⟩ lockedBox.listDir = ["", "box"] ∧
      (walkCalls ⟨true, none, 10, 10⟩ lockedBox.listDir).Nodup ∧
      walk ⟨true, none, 10, 10⟩ lockedBox.listDir = .error "permission denied" ∧
      ∃ d ∈ lockedBox.tree.listedDirs ⟨true, none, 10, 10⟩, ∃ error,
        lockedBox.listDir d = .error error := by
  have hfails : walk ⟨true, none, 10, 10⟩ lockedBox.listDir = .error "permission denied" := by
    decide +kernel
  obtain ⟨⟨-, -, hnodup⟩, -, herror, -⟩ := walk_reference ⟨true, none, 10, 10⟩ lockedBox
  exact ⟨by decide +kernel, hnodup, hfails, herror.mp ⟨_, hfails⟩⟩

end Lister

end McpgSdk

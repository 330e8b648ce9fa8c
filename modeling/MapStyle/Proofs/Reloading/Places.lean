import MapStyle.Proofs.Reloading.Versions

/-!
# Places of watched files

A stylesheet keeps the path that it was loaded from as it was given, while a watcher reports changes of
the file under the path from the root. Both are the same to a resolver only if the first one starts at the
root, too, and never goes up.
-/

namespace MapStyle

variable {P : Type}

/-! ### Names in paths -/

namespace Path

variable {p : Path}

/-- The parts of a list between separators hold no separator. -/
lemma not_of_mem_splitOnP {α : Type} {f : α → Bool} {xs part : List α} (h : part ∈ xs.splitOnP f) :
    ∀ x ∈ part, ¬ f x := by
  induction xs generalizing part with
  | nil =>
    obtain rfl := List.mem_singleton.mp h
    exact fun x hx => absurd hx List.not_mem_nil
  | cons a xs ih =>
    rw [List.splitOnP_cons_eq_if_modifyHead] at h
    split at h
    · obtain rfl | h := List.mem_cons.mp h
      · exact fun x hx => absurd hx List.not_mem_nil
      · exact ih h
    · next ha =>
      obtain ⟨first, rest, hsplit⟩ := List.exists_cons_of_ne_nil (List.splitOnP_ne_nil f xs)
      rw [hsplit] at h ih
      obtain rfl | h := List.mem_cons.mp h
      · exact List.forall_mem_cons.mpr ⟨ha, ih List.mem_cons_self⟩
      · exact ih (List.mem_cons_of_mem _ h)

lemma slash_notMem_of_mem_pieces {piece : String} (h : piece ∈ p.pieces) : '/' ∉ piece.toList := by
  obtain ⟨part, hpart, rfl⟩ := List.mem_map.mp h
  rw [String.toList_ofList]
  exact fun hslash => not_of_mem_splitOnP hpart '/' hslash rfl

/-- A piece that names something and does not go up. -/
def IsName (piece : String) : Prop :=
  piece ≠ "" ∧ piece ≠ "." ∧ piece ≠ ".."

lemma mem_proper {piece : String} {pieces : List String} :
    piece ∈ proper pieces ↔ piece ∈ pieces ∧ piece ≠ "" ∧ piece ≠ "." := by
  simp [proper]

end Path

namespace RealPath

lemma isAbsolute_path (place : RealPath) : place.path.isAbsolute := by
  simp [Path.isAbsolute, RealPath.path]

/-- The names of a place are the proper pieces of its path. -/
lemma proper_pieces_path {place : RealPath}
    (h : ∀ name ∈ place, '/' ∉ name.toList ∧ name ≠ "" ∧ name ≠ ".") :
    Path.proper place.path.pieces = place := by
  have htext : place.path.text.toList = '/' :: ['/'].intercalate (place.map String.toList) := by
    simp [RealPath.path]
  rw [Path.pieces, htext, List.splitOnP_cons_eq_if_modifyHead, if_pos (beq_self_eq_true '/'),
    ← List.splitOn_eq_splitOnP]
  cases place with
  | nil => rfl
  | cons name names =>
    have hslash : ∀ part ∈ (name :: names).map String.toList, '/' ∉ part := by
      rw [List.forall_mem_map]
      exact fun name hname => (h name hname).1
    have hid : String.ofList ∘ String.toList = id := funext fun _ => String.ofList_toList
    rw [List.splitOn_intercalate '/' hslash (List.cons_ne_nil _ _), List.map_cons, List.map_map, hid,
      List.map_id]
    refine (List.filter_cons_of_neg (by decide)).trans (List.filter_eq_self.mpr fun name hname => ?_)
    obtain ⟨-, hempty, hpoint⟩ := h name hname
    simp [hempty, hpoint]

end RealPath

namespace FileSystem

variable {fs : FileSystem} {p : Path} {place next : RealPath} {piece : String}

/-- A piece of a path leads nowhere else, one up, or down to what it names. -/
lemma follow_cases (h : fs.follow place piece = some next) :
    (piece = "" ∨ piece = ".") ∧ next = place ∨ piece = ".." ∧ next = place.dropLast ∨
      Path.IsName piece ∧ next = place ++ [piece] := by
  unfold follow at h
  split at h
  · cases h
  split at h
  · next hsame =>
    cases h
    exact .inl ⟨by simpa using hsame, rfl⟩
  next hsame =>
  simp only [Bool.or_eq_true, decide_eq_true_eq, not_or] at hsame
  split at h
  · next hup =>
    cases h
    exact .inr (.inl ⟨hup, rfl⟩)
  · next hup =>
    cases h
    exact .inr (.inr ⟨⟨hsame.1, hsame.2, hup⟩, rfl⟩)

/-- Whatever a path adds to the place where it starts are names that stand in it. -/
lemma isName_of_foldlM {pieces : List String} (h : pieces.foldlM fs.follow place = some next) :
    ∀ name ∈ next, name ∈ place ∨ name ∈ pieces ∧ Path.IsName name := by
  induction pieces generalizing place with
  | nil =>
    cases h
    exact fun name hname => .inl hname
  | cons piece pieces ih =>
    rw [List.foldlM_cons] at h
    obtain ⟨middle, hfollow, h⟩ := Option.bind_eq_some_iff.mp h
    intro name hname
    obtain hmiddle | ⟨hpieces, hproper⟩ := ih h name hname
    · obtain ⟨-, rfl⟩ | ⟨-, rfl⟩ | ⟨hpiece, rfl⟩ := follow_cases hfollow
      · exact .inl hmiddle
      · exact .inl (List.mem_of_mem_dropLast hmiddle)
      · obtain hplace | hlast := List.mem_append.mp hmiddle
        · exact .inl hplace
        · obtain rfl := List.mem_singleton.mp hlast
          exact .inr ⟨List.mem_cons_self, hpiece⟩
    · exact .inr ⟨List.mem_cons_of_mem _ hpieces, hproper⟩

/-- A path that never goes up leads down its proper pieces. -/
lemma eq_append_of_foldlM {pieces : List String} (hup : ".." ∉ pieces)
    (h : pieces.foldlM fs.follow place = some next) : next = place ++ Path.proper pieces := by
  induction pieces generalizing place with
  | nil =>
    cases h
    exact (List.append_nil _).symm
  | cons piece pieces ih =>
    rw [List.foldlM_cons] at h
    obtain ⟨middle, hfollow, h⟩ := Option.bind_eq_some_iff.mp h
    obtain ⟨hpiece, hpieces⟩ := not_or.mp (mt List.mem_cons.mpr hup)
    rw [ih hpieces h]
    obtain ⟨rfl | rfl, rfl⟩ | ⟨rfl, -⟩ | ⟨⟨hempty, hpoint, -⟩, rfl⟩ := follow_cases hfollow
    · rw [Path.proper, Path.proper, List.filter_cons_of_neg (by decide)]
    · rw [Path.proper, Path.proper, List.filter_cons_of_neg (by decide)]
    · exact absurd rfl hpiece
    · rw [Path.proper, Path.proper, List.filter_cons_of_pos (by simp [hempty, hpoint]),
        List.append_assoc, List.singleton_append]

lemma foldlM_of_realPath? (h : fs.realPath? p = some place) :
    p.pieces.foldlM fs.follow (if p.isAbsolute then [] else fs.home) = some place := by
  have htarget := (Option.filter_eq_some_iff.mp h).1
  rw [target?] at htarget
  split at htarget
  · cases htarget
  · exact htarget

/-- A path compares as equal to the path of the place that it leads to just if it starts at the root and
never goes up. -/
theorem same_path_iff (h : fs.realPath? p = some place) :
    p.same place.path ↔ p.isAbsolute ∧ ".." ∉ p.pieces := by
  have hfold := foldlM_of_realPath? h
  rw [Path.same_iff]
  have habsolute : place.path.components = "/" :: Path.proper place.path.pieces :=
    if_pos place.isAbsolute_path
  rw [habsolute]
  by_cases hp : p.isAbsolute
  · have hcomponents : p.components = "/" :: Path.proper p.pieces := if_pos hp
    rw [if_pos hp] at hfold
    -- every piece of the place is a piece of the path, and a proper name
    have hnames (name : String) (hname : name ∈ place) : name ∈ p.pieces ∧ Path.IsName name :=
      (isName_of_foldlM hfold name hname).resolve_left List.not_mem_nil
    have hproper : Path.proper place.path.pieces = place :=
      RealPath.proper_pieces_path fun name hname =>
        ⟨Path.slash_notMem_of_mem_pieces (hnames name hname).1, (hnames name hname).2.1,
          (hnames name hname).2.2.1⟩
    rw [hcomponents, hproper, List.cons_inj_right]
    constructor
    · -- a path that goes up has a piece that no place has
      intro hsame
      refine ⟨hp, fun hup => ?_⟩
      have hmem : ".." ∈ place := hsame ▸ Path.mem_proper.mpr ⟨hup, by decide, by decide⟩
      exact (hnames ".." hmem).2.2.2 rfl
    · rintro ⟨-, hup⟩
      exact (eq_append_of_foldlM hup hfold).symm
  · -- a path that does not start at the root has other components than a place
    refine iff_of_false (fun hsame => ?_) fun habs => hp habs.1
    rw [Path.components, if_neg hp] at hsame
    split at hsame
    · exact absurd (List.cons.inj hsame).1 (by decide)
    · have hmem : "/" ∈ Path.proper p.pieces := hsame ▸ List.mem_cons_self
      exact Path.slash_notMem_of_mem_pieces (Path.mem_proper.mp hmem).1 (by decide)

end FileSystem

/-! ### Following a watched file -/

lemma Watcher.path_mem_paths {w w' : Watcher} {fs : FileSystem} {p : Path} {place : RealPath}
    (hwatch : w.watch fs p = .ok w') (hplace : fs.realPath? p = some place) : place.path ∈ w'.paths := by
  rw [watch, hplace] at hwatch
  cases hwatch
  refine List.mem_map_of_mem ?_
  split
  · next hwatched => exact List.contains_iff_mem.mp hwatched
  · exact List.mem_append_right _ (List.mem_singleton.mpr rfl)

namespace Resolver

variable {d : Dialect P} {fs fs' : FileSystem} {p : Path} {w w' : Watcher} {place : RealPath}
  {r : Resolver P} {before after : List (Sheet P)} {s s' : Sheet P}

/-- A stylesheet that was loaded from a path, as the first one from its place, and a change that the
watcher of the path reports once the file has been modified: the new version takes the place of the old
one just if the path starts at the root and never goes up. Otherwise the old version stays, and unless
another one was loaded from the reported path the new one comes on top. -/
theorem sheets_applyChanges_watched (hload : d.load fs p = .ok s) (hwatch : w.watch fs p = .ok w')
    (hplace : fs.realPath? p = some place) (hr : r.sheets = before ++ s :: after)
    (hfirst : ∀ t ∈ before, ¬ t.isFrom place.path) (hreload : d.load fs' place.path = .ok s') :
    place.path ∈ w'.paths ∧
      ((applyChanges d fs' r [⟨place.path, .modified⟩]).1.sheets = before ++ s' :: after ↔
        p.isAbsolute ∧ ".." ∉ p.pieces) ∧
      (¬ (p.isAbsolute ∧ ".." ∉ p.pieces) →
        (applyChanges d fs' r [⟨place.path, .modified⟩]).1.sheets[before.length]? = some s ∧
        ((∀ t ∈ after, ¬ t.isFrom place.path) →
          (applyChanges d fs' r [⟨place.path, .modified⟩]).1.sheets = r.sheets ++ [s'])) := by
  have hresult : (applyChanges d fs' r [⟨place.path, .modified⟩]).1 =
      (r.replace place.path s').2 := by
    rw [applyChanges, List.foldl_cons, List.foldl_nil, applyChange_of_load rfl hreload]
  have hs : s.isFrom place.path ↔ p.isAbsolute ∧ ".." ∉ p.pieces := by
    rw [Sheet.isFrom_of_path (Dialect.path_of_load hload), FileSystem.same_path_iff hplace]
  have hindex : r.sheets[before.length]? = some s := hr ▸ getElem?_length_append before s after
  rw [hresult, ← hs]
  refine ⟨Watcher.path_mem_paths hwatch hplace, ⟨fun heq => ?_, replace_of_first hr hfirst⟩,
    fun hother => ⟨getElem?_replace hindex hother, fun hafter => replace_of_forall_not ?_⟩⟩
  · -- had the new version taken the place of the old one, the old one would be from that path
    by_contra hother
    have hkept : (before ++ s' :: after)[before.length]? = some s := heq ▸ getElem?_replace hindex hother
    rw [getElem?_length_append] at hkept
    obtain rfl : s' = s := Option.some.inj hkept
    exact hother (Dialect.isFrom_of_load hreload)
  · rw [hr, List.forall_mem_append, List.forall_mem_cons]
    exact ⟨hfirst, hother, hafter⟩

/-- The path under which changes of the file are reported. -/
def roadsPlace : RealPath := ["session", "roads.mss"]

/-- A stylesheet that was loaded from an absolute path is the one that the watcher reports, a dot in the path
notwithstanding. -/
theorem sheets_applyChanges_watched_roads : ∃ (s t : Sheet Cql.Expr) (w : Watcher),
    Dialect.cql.load (.withRoads (widthText "1")) ⟨"/session/./roads.mss"⟩ = .ok s ∧
      ({} : Watcher).watch (.withRoads (widthText "1")) ⟨"/session/./roads.mss"⟩ = .ok w ∧
      (FileSystem.withRoads (widthText "1")).realPath? ⟨"/session/./roads.mss"⟩ = some roadsPlace ∧
      (∀ t ∈ [({} : Sheet Cql.Expr)], ¬ t.isFrom roadsPlace.path) ∧
      Dialect.cql.load (.withRoads (widthText "2")) roadsPlace.path = .ok t ∧
      roadsPlace.path ∈ w.paths ∧
      (applyChanges Dialect.cql (.withRoads (widthText "2")) ⟨[{}, s, {}]⟩
        [⟨roadsPlace.path, .modified⟩]).1.sheets = [{}, t, {}] := by
  obtain ⟨s, t, hs, ht, -⟩ := exists_versions (p := ⟨"/session/./roads.mss"⟩) (q := roadsPlace.path) rfl rfl
  have hplace : (FileSystem.withRoads (widthText "1")).realPath? ⟨"/session/./roads.mss"⟩ =
      some roadsPlace := rfl
  have hfirst : ∀ t ∈ [({} : Sheet Cql.Expr)], ¬ t.isFrom roadsPlace.path :=
    List.forall_mem_singleton.mpr Bool.false_ne_true
  have hwatch : ({} : Watcher).watch (.withRoads (widthText "1")) ⟨"/session/./roads.mss"⟩ =
      .ok ⟨[roadsPlace]⟩ := rfl
  have hsheets : (⟨[{}, s, {}]⟩ : Resolver Cql.Expr).sheets =
      [({} : Sheet Cql.Expr)] ++ s :: [({} : Sheet Cql.Expr)] := rfl
  obtain ⟨hmem, hiff, -⟩ := sheets_applyChanges_watched hs hwatch hplace hsheets hfirst ht
  exact ⟨s, t, _, hs, hwatch, hplace, hfirst, ht, hmem, hiff.mpr (by decide +kernel)⟩

/-- A stylesheet that was loaded from a relative path is not the one that the watcher reports. -/
theorem exists_applyChanges_watched_ne : ∃ (s t : Sheet Cql.Expr) (w : Watcher),
    Dialect.cql.load (.withRoads (widthText "1")) ⟨"./roads.mss"⟩ = .ok s ∧
      ({} : Watcher).watch (.withRoads (widthText "1")) ⟨"./roads.mss"⟩ = .ok w ∧
      w.paths = [⟨"/session/roads.mss"⟩] ∧
      Dialect.cql.load (.withRoads (widthText "2")) ⟨"/session/roads.mss"⟩ = .ok t ∧ s ≠ t ∧
      (applyChanges Dialect.cql (.withRoads (widthText "2")) (({} : Resolver _).add s)
        [⟨⟨"/session/roads.mss"⟩, .modified⟩]).1.sheets = [s, t] := by
  obtain ⟨s, t, hs, ht, hne⟩ :=
    exists_versions (p := ⟨"./roads.mss"⟩) (q := ⟨"/session/roads.mss"⟩) rfl rfl
  refine ⟨s, t, ⟨[roadsPlace]⟩, hs, rfl, by decide +kernel, ht, hne, ?_⟩
  have hother : ∀ u ∈ (({} : Resolver _).add s).sheets, ¬ u.isFrom ⟨"/session/roads.mss"⟩ := by
    refine List.forall_mem_singleton.mpr ?_
    rw [Sheet.isFrom_of_path (Dialect.path_of_load hs)]
    decide +kernel
  rw [applyChanges, List.foldl_cons, List.foldl_nil, applyChange_of_load rfl ht]
  exact replace_of_forall_not hother

end Resolver

end MapStyle

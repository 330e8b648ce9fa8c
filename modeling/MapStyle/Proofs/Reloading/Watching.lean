import MapStyle.Proofs.Reloading.Places

/-!
# Watching and unwatching files

What a watcher watches after any number of calls, while files come and go. A file is watched from a
successful call on, until it is unwatched at a time when it exists: unwatching a file that is gone leaves it
among the watched ones, and watching it again when it is back does nothing then.
-/

namespace MapStyle

/-! ### Where paths lead -/

namespace FileSystem

/-- The place to which a piece of a path leads from a directory. -/
def go (place : RealPath) (piece : String) : RealPath :=
  if piece = "" || piece = "." then place
  else if piece = ".." then place.dropLast
  else place ++ [piece]

/-- The one place that a path names, whether there is a file or not. -/
def destination (fs : FileSystem) (p : Path) : RealPath :=
  p.pieces.foldl go (if p.isAbsolute then [] else fs.home)

variable {fs fs' : FileSystem} {p : Path} {place : RealPath}

/-- A walk that goes through ends where its pieces lead. -/
lemma eq_foldl_of_foldlM {pieces : List String} {start : RealPath}
    (h : pieces.foldlM fs.follow start = some place) : place = pieces.foldl go start := by
  induction pieces generalizing start with
  | nil =>
    cases h
    rfl
  | cons piece pieces ih =>
    rw [List.foldlM_cons] at h
    obtain ⟨middle, hfollow, h⟩ := Option.bind_eq_some_iff.mp h
    have hgo : middle = go start piece := by
      obtain ⟨rfl | rfl, rfl⟩ | ⟨rfl, rfl⟩ | ⟨⟨hempty, hpoint, hup⟩, rfl⟩ := follow_cases hfollow
      · rfl
      · rfl
      · rfl
      · simp [go, hempty, hpoint, hup]
    rw [List.foldl_cons, ← hgo]
    exact ih h

/-- A path of an existing file leads to its place. -/
lemma destination_of_realPath? (h : fs.realPath? p = some place) : fs.destination p = place :=
  (eq_foldl_of_foldlM (foldlM_of_realPath? h)).symm

lemma destination_congr (h : fs.home = fs'.home) (p : Path) : fs.destination p = fs'.destination p := by
  rw [destination, destination, h]

lemma home_write (fs : FileSystem) (p : Path) (contents : ByteArray) : (fs.write p contents).home = fs.home := by
  rw [write]
  split <;> rfl

lemma home_delete (fs : FileSystem) (p : Path) : (fs.delete p).home = fs.home := by
  rw [delete]
  split <;> rfl

end FileSystem

namespace Watcher

/-! ### Single calls -/

variable {w : Watcher} {fs : FileSystem} {p : Path} {place : RealPath}

lemma watch_of_realPath? (h : fs.realPath? p = some place) :
    w.watch fs p = .ok (if w.watched.contains place then w else ⟨w.watched ++ [place]⟩) := by
  rw [watch, h]

/-- A call begins to watch a file just if it is not watched yet. -/
lemma watch_eq_append_iff (h : fs.realPath? p = some place) :
    w.watch fs p = .ok ⟨w.watched ++ [place]⟩ ↔ place ∉ w.watched := by
  rw [watch_of_realPath? h, Except.ok.injEq]
  by_cases hplace : place ∈ w.watched
  · rw [if_pos (List.contains_iff_mem.mpr hplace)]
    refine iff_of_false (fun heq => ?_) (not_not_intro hplace)
    have hlength := congrArg (·.watched.length) heq
    simp at hlength
  · rw [if_neg (mt List.contains_iff_mem.mp hplace)]
    exact iff_of_true rfl hplace

lemma mem_watched_unwatch :
    place ∈ (w.unwatch fs p).watched ↔ place ∈ w.watched ∧ fs.realPath? p ≠ some place := by
  rw [unwatch]
  split
  · next h => simp [h]
  · next other h =>
    rw [h, List.mem_filter, bne_iff_ne, ne_comm, ne_eq, ne_eq, Option.some_inj]

/-! ### Sequences of calls -/

/-- What can happen to a watcher and to the files around it. -/
inductive Event where
  | watch (path : Path)
  | unwatch (path : Path)
  | write (path : Path) (contents : ByteArray)
  | delete (path : Path)

/-- The watcher and the files after an event. A call that fails changes nothing. -/
def step (state : Watcher × FileSystem) : Event → Watcher × FileSystem
  | .watch p => ((state.1.watch state.2 p).toOption.getD state.1, state.2)
  | .unwatch p => (state.1.unwatch state.2 p, state.2)
  | .write p contents => (state.1, state.2.write p contents)
  | .delete p => (state.1, state.2.delete p)

/-- A new watcher and the files around it after some events. -/
def after (fs : FileSystem) (events : List Event) : Watcher × FileSystem :=
  events.foldl step ({}, fs)

lemma after_concat (fs : FileSystem) (events : List Event) (e : Event) :
    after fs (events ++ [e]) = step (after fs events) e := by
  rw [after, List.foldl_append]
  rfl

lemma mem_watched_watch : place ∈ ((w.watch fs p).toOption.getD w).watched ↔
    fs.realPath? p = some place ∨ place ∈ w.watched := by
  cases h : fs.realPath? p with
  | none => simp [watch, h, Except.toOption]
  | some other =>
    rw [watch_of_realPath? h, Except.toOption, Option.getD_some, Option.some_inj]
    split
    · next hother =>
      have hmem : other ∈ w.watched := List.contains_iff_mem.mp hother
      exact ⟨.inr, fun hplace => hplace.elim (fun heq => heq ▸ hmem) id⟩
    · rw [List.mem_append, List.mem_singleton, or_comm, eq_comm]

/-- An event starts or stops the watching of a file only if it is a call that finds the file. -/
lemma mem_watched_step (state : Watcher × FileSystem) (e : Event) :
    place ∈ (step state e).1.watched ↔
      (∃ p, e = .watch p ∧ state.2.realPath? p = some place) ∨
        place ∈ state.1.watched ∧ ∀ q, e = .unwatch q → state.2.realPath? q ≠ some place := by
  cases e with
  | watch p => simp [step, mem_watched_watch]
  | unwatch p => simp [step, mem_watched_unwatch]
  | write p contents => simp [step]
  | delete p => simp [step]

lemma home_step (state : Watcher × FileSystem) (e : Event) : (step state e).2.home = state.2.home := by
  cases e with
  | watch p => rfl
  | unwatch p => rfl
  | write p contents => exact FileSystem.home_write ..
  | delete p => exact FileSystem.home_delete ..

lemma home_after (fs : FileSystem) (events : List Event) : (after fs events).2.home = fs.home := by
  induction events using List.reverseRecOn with
  | nil => rfl
  | append_singleton events e ih => rw [after_concat, home_step, ih]

/-- What is split off at an element either ends with the last one or is split at it. -/
lemma cases_of_concat_eq {α : Type} {as bs cs : List α} {a b : α} (h : as ++ [a] = bs ++ b :: cs) :
    cs = [] ∧ as = bs ∧ a = b ∨ ∃ ds, cs = ds ++ [a] ∧ as = bs ++ b :: ds := by
  rcases List.eq_nil_or_concat' cs with rfl | ⟨ds, c, rfl⟩
  · obtain ⟨rfl, hab⟩ := List.append_inj' h rfl
    exact .inl ⟨rfl, rfl, List.singleton_inj.mp hab⟩
  · rw [← List.cons_append, ← List.append_assoc] at h
    obtain ⟨rfl, hac⟩ := List.append_inj' h rfl
    exact .inr ⟨ds, by rw [hac], rfl⟩

/-- What is watched was watched by some call, and no later call has stopped it. -/
lemma mem_watched_after (fs : FileSystem) (events : List Event) (place : RealPath) :
    place ∈ (after fs events).1.watched ↔
      ∃ before p later, events = before ++ .watch p :: later ∧
        (after fs before).2.realPath? p = some place ∧
        ∀ middle q rest, later = middle ++ .unwatch q :: rest →
          (after fs (before ++ .watch p :: middle)).2.realPath? q ≠ some place := by
  induction events using List.reverseRecOn with
  | nil => simp [after]
  | append_singleton events e ih =>
    rw [after_concat, mem_watched_step, ih]
    -- the last event is the call that watches the file, or it stands behind that call
    constructor
    · rintro (⟨p, rfl, hplace⟩ | ⟨⟨before, p, later, rfl, hplace, hlater⟩, hlast⟩)
      · exact ⟨events, p, [], rfl, hplace, by simp⟩
      · refine ⟨before, p, later ++ [e], by simp, hplace, fun middle q rest hsplit => ?_⟩
        rcases cases_of_concat_eq hsplit with ⟨-, rfl, rfl⟩ | ⟨rest, -, hrest⟩
        · exact hlast q rfl
        · exact hlater middle q rest hrest
    · rintro ⟨before, p, later, hsplit, hplace, hlater⟩
      rcases cases_of_concat_eq hsplit with ⟨rfl, rfl, rfl⟩ | ⟨later, rfl, rfl⟩
      · exact .inl ⟨p, rfl, hplace⟩
      · refine .inr ⟨⟨before, p, later, rfl, hplace, fun middle q rest hrest => ?_⟩, fun q he => ?_⟩
        · exact hlater middle q (rest ++ [e]) (by simp [hrest])
        · exact hlater later q [] (by rw [he])

/-- Behind a call that unwatches a path, its file is not watched if the call has found it, or if it was not
watched before. -/
lemma destination_notMem_watched (fs : FileSystem) (events : List Event) (p : Path) :
    fs.destination p ∉ (after fs (events ++ [.unwatch p])).1.watched ↔
      ((after fs events).2.realPath? p).isSome ∨ fs.destination p ∉ (after fs events).1.watched := by
  rw [after_concat, step, mem_watched_unwatch]
  cases hplace : (after fs events).2.realPath? p with
  | none => simp
  | some place =>
    have hdestination : fs.destination p = place :=
      calc fs.destination p
        _ = (after fs events).2.destination p :=
          FileSystem.destination_congr (home_after fs events).symm p
        _ = place := FileSystem.destination_of_realPath? hplace
    simp [hdestination]

/-- A file is watched just if some call has watched it and no call since then has unwatched it while it
existed. So behind a call that unwatches a path, its file is not watched just if it existed or was not
watched before, and just then a later call, when the file is back, begins to watch it again. -/
theorem mem_watched_iff (fs : FileSystem) (events : List Event) :
    (∀ place, place ∈ (after fs events).1.watched ↔
      ∃ before p later, events = before ++ .watch p :: later ∧
        (after fs before).2.realPath? p = some place ∧
        ∀ middle q rest, later = middle ++ .unwatch q :: rest →
          (after fs (before ++ .watch p :: middle)).2.realPath? q ≠ some place) ∧
      ∀ p, (fs.destination p ∉ (after fs (events ++ [.unwatch p])).1.watched ↔
          ((after fs events).2.realPath? p).isSome ∨ fs.destination p ∉ (after fs events).1.watched) ∧
        ∀ fs', fs'.realPath? p = some (fs.destination p) →
          ((after fs (events ++ [.unwatch p])).1.watch fs' p =
              .ok ⟨(after fs (events ++ [.unwatch p])).1.watched ++ [fs.destination p]⟩ ↔
            ((after fs events).2.realPath? p).isSome ∨
              fs.destination p ∉ (after fs events).1.watched) := by
  refine ⟨mem_watched_after fs events, fun p => ⟨destination_notMem_watched fs events p, ?_⟩⟩
  intro fs' hback
  rw [← destination_notMem_watched fs events p, watch_eq_append_iff hback]

/-- A file is written, watched and removed. -/
def removal : List Event :=
  [.write ⟨"roads.mss"⟩ .empty, .watch ⟨"roads.mss"⟩, .delete ⟨"roads.mss"⟩]

/-- A file that is unwatched when it is gone is still among the watched ones, and when it is back a call that
watches it does nothing. -/
theorem destination_mem_watched_removal :
    let fs : FileSystem := { home := ["session"] }
    let p : Path := ⟨"roads.mss"⟩
    let unwatched := after fs (removal ++ [.unwatch p])
    let rewritten := after fs (removal ++ .unwatch p :: [.write p .empty])
    fs.destination p ∈ unwatched.1.watched ∧ (rewritten.2.realPath? p).isSome ∧
      rewritten.1.watch rewritten.2 p = .ok rewritten.1 := by
  refine ⟨?_, rfl, rfl⟩
  decide +kernel

end Watcher

end MapStyle

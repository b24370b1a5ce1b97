import Mathlib
import DelaunaySurface.Isoline
/-!
# Threads

Where no node has more than two links, the nodes are strung on lines and loops. Following links from a node
goes along one of them up to its end; traced from all ends and then from what is left, each node is on one
path, once (`threaded_paths`).
-/

namespace DelaunaySurface

namespace Isoline

/-- Links that go both ways, at most once between two nodes and at most two from each. -/
structure Strings (links : Links) : Prop where
  symm : ∀ {e f}, f ∈ linked links e → e ∈ linked links f
  ne : ∀ {e f}, f ∈ linked links e → f ≠ e
  nodup : ∀ e, (linked links e).Nodup
  le_two : ∀ e, (linked links e).length ≤ 2

/-- A path over linked nodes that comes to no node twice. -/
structure Thread (links : Links) (path : List Edge) : Prop where
  nodup : path.Nodup
  chain : path.IsChain fun e f => f ∈ linked links e

variable {links : Links} {path : List Edge} {e f x y z : Edge} {i steps : Nat}

/-- A single link is all links. -/
theorem eq_of_single (hone : (linked links e).length = 1) (hx : x ∈ linked links e) (hy : y ∈ linked links e) : x = y := by
  obtain ⟨z, hz⟩ := List.length_eq_one_iff.1 hone
  rw [hz, List.mem_singleton] at hx hy
  rw [hx, hy]

namespace Strings

variable (h : Strings links)

include h

/-- Of two different links, one or the other. -/
theorem eq_or_eq (hx : x ∈ linked links e) (hy : y ∈ linked links e) (hxy : x ≠ y) (hz : z ∈ linked links e) :
    z = x ∨ z = y := by
  by_contra hno
  rw [not_or] at hno
  have hthree : [z, x, y].Nodup := by simp [hno, hxy]
  have hsub : [z, x, y] ⊆ linked links e := by simp [hx, hy, hz]
  have := (List.subperm_of_subset hthree hsub).length_le
  have := h.le_two e
  simp only [List.length_cons, List.length_nil] at *
  omega

theorem length_eq_two (hx : x ∈ linked links e) (hy : y ∈ linked links e) (hxy : x ≠ y) :
    (linked links e).length = 2 := by
  have hsub : [x, y] ⊆ linked links e := by simp [hx, hy]
  exact le_antisymm (h.le_two e) (List.subperm_of_subset (by simp [hxy]) hsub).length_le

end Strings

namespace Thread

variable (h : Strings links) (p : Thread links path)

include p

theorem ne {j k : Nat} (hj : j < path.length) (hk : k < path.length) (hjk : j ≠ k) : path[j] ≠ path[k] := fun e =>
  hjk (p.nodup.getElem_inj_iff.1 e)

theorem link (hi : i + 1 < path.length) : path[i + 1] ∈ linked links path[i] :=
  List.isChain_iff_getElem.1 p.chain i hi

include h

/-- A node inside a path is linked with its neighbours on the path only. -/
theorem inner (hi : i + 2 < path.length) (hf : f ∈ linked links path[i + 1]) : f = path[i] ∨ f = path[i + 2] := by
  exact h.eq_or_eq (h.symm (p.link (by omega))) (p.link hi) (p.ne _ _ (by omega)) hf

theorem length_inner (hi : i + 2 < path.length) : (linked links path[i + 1]).length = 2 := by
  exact h.length_eq_two (h.symm (p.link (by omega))) (p.link hi) (p.ne _ _ (by omega))

/-- The last node of a path is linked on the path with the node before it and perhaps with the first. -/
theorem last (hi : i + 2 = path.length) (hf : f ∈ linked links path[i + 1]) (hmem : f ∈ path) :
    f = path[0] ∨ f = path[i] := by
  obtain ⟨j, hj, rfl⟩ := List.mem_iff_getElem.1 hmem
  have hne : j ≠ i + 1 := by
    rintro rfl
    exact h.ne hf rfl
  rcases j with _ | j
  · exact .inl rfl
  · rcases p.inner h (i := j) (by omega) (h.symm hf) with e | e
    · have := (p.nodup.getElem_inj_iff).1 e
      omega
    · have := (p.nodup.getElem_inj_iff).1 e
      refine .inr ?_
      congr 1
      omega

end Thread

/-! ## Following links -/

variable {visited after : Std.HashSet Edge}

/-- A path from `e` over nodes not visited before, and the nodes visited after it. -/
structure Followed (links : Links) (visited : Std.HashSet Edge) (e : Edge) (path : List Edge)
    (after : Std.HashSet Edge) : Prop where
  thread : Thread links path
  head : ∀ f ∈ path.head?, f = e
  links_ne : ∀ f ∈ path, linked links f ≠ []
  fresh : ∀ f ∈ path, f ∉ visited
  mem_iff : ∀ f, f ∈ after ↔ f ∈ visited ∨ f ∈ path

theorem mem_insert_iff : f ∈ visited.insert e ↔ f = e ∨ f ∈ visited := by
  rw [Std.HashSet.mem_insert, beq_iff_eq, eq_comm]

/-- A path that goes on from a link of `e` is one from `e`. -/
theorem Followed.cons (hnew : e ∉ visited) (hef : f ∈ linked links e)
    (hp : Followed links (visited.insert e) f path after) : Followed links visited e (e :: path) after where
  thread :=
    { nodup := List.nodup_cons.2 ⟨fun he => hp.fresh e he (mem_insert_iff.2 (.inl rfl)), hp.thread.nodup⟩
      chain := List.isChain_cons.2 ⟨fun x hx => hp.head x hx ▸ hef, hp.thread.chain⟩ }
  head := by simp
  links_ne := List.forall_mem_cons.2 ⟨List.ne_nil_of_mem hef, hp.links_ne⟩
  fresh := List.forall_mem_cons.2 ⟨hnew, fun x hx hv => hp.fresh x hx (mem_insert_iff.2 (.inr hv))⟩
  mem_iff x := by
    rw [hp.mem_iff, mem_insert_iff, List.mem_cons]
    tauto

/-- A path is followed until all links of its last node are visited, or as long as there are steps. -/
theorem follow_spec (h : Strings links) (he : linked links e ≠ []) (hnew : e ∉ visited) (steps : Nat) :
    Followed links visited e (follow links steps visited e).1 (follow links steps visited e).2 ∧
      ((∃ z ∈ (follow links steps visited e).1.getLast?, ∀ f ∈ linked links z, f ∈ (follow links steps visited e).2) ∨
        (follow links steps visited e).1.length = steps ∧
          ∃ f, linked links f ≠ [] ∧ f ∉ (follow links steps visited e).2) := by
  induction steps generalizing visited e with
  | zero => exact ⟨⟨⟨.nil, .nil⟩, nofun, nofun, nofun, fun f => by simp [follow]⟩, .inr ⟨rfl, e, he, hnew⟩⟩
  | succ steps ih =>
    cases hfind : (linked links e).find? fun f => !(visited.insert e).contains f with
    | none =>
      simp only [follow, hfind]
      refine ⟨⟨⟨List.nodup_singleton e, .singleton e⟩, by simp, by simpa, by simpa, fun f => ?_⟩,
        .inl ⟨e, rfl, fun f hf => ?_⟩⟩
      · rw [mem_insert_iff, List.mem_singleton, or_comm]
      · have := List.find?_eq_none.1 hfind f hf
        rwa [Bool.not_eq_true', Bool.not_eq_false, ← Std.HashSet.mem_iff_contains] at this
    | some f =>
      have hef := List.mem_of_find?_eq_some hfind
      have hf : f ∉ visited.insert e := by
        have := List.find?_some hfind
        rwa [Bool.not_eq_true', ← Bool.not_eq_true, ← Std.HashSet.mem_iff_contains] at this
      obtain ⟨hp, hend⟩ := ih (List.ne_nil_of_mem (h.symm hef)) hf
      simp only [follow, hfind]
      refine ⟨hp.cons hnew hef, ?_⟩
      rcases hend with ⟨z, hz, hdone⟩ | ⟨hlength, hmore⟩
      · refine .inl ⟨z, ?_, hdone⟩
        obtain ⟨init, hinit⟩ := List.getLast?_eq_some_iff.1 hz
        rw [hinit, ← List.cons_append]
        exact List.getLast?_concat
      · exact .inr ⟨congrArg (· + 1) hlength, hmore⟩

/-- There is a step for each node. -/
def Suffice (steps : Nat) (links : Links) : Prop :=
  ∀ l : List Edge, l.Nodup → (∀ f ∈ l, linked links f ≠ []) → l.length ≤ steps

/-- With a step for each node, a path ends only where all links are visited. -/
theorem follow_done (h : Strings links) (hsteps : Suffice steps links) (he : linked links e ≠ []) (hnew : e ∉ visited) :
    ∃ z ∈ (follow links steps visited e).1.getLast?, ∀ f ∈ linked links z, f ∈ (follow links steps visited e).2 := by
  obtain ⟨hp, hend⟩ := follow_spec h he hnew steps
  refine hend.resolve_right ?_
  rintro ⟨hlength, f, hf, hmore⟩
  rw [hp.mem_iff, not_or] at hmore
  have := hsteps (f :: (follow links steps visited e).1) (List.nodup_cons.2 ⟨hmore.2, hp.thread.nodup⟩)
    (List.forall_mem_cons.2 ⟨hf, hp.links_ne⟩)
  rw [List.length_cons, hlength] at this
  omega

/-! ## Lines and loops -/

/-- All links of the nodes visited are visited. -/
def Closed (links : Links) (visited : Std.HashSet Edge) : Prop := ∀ e ∈ visited, ∀ f ∈ linked links e, f ∈ visited

theorem closed_empty : Closed links ∅ := fun _ he => absurd he Std.HashSet.not_mem_empty

/-- A whole line, between two nodes with a single link. -/
def Line (links : Links) (path : List Edge) : Prop :=
  Thread links path ∧ ∃ i, ∃ hi : i + 2 = path.length,
    (linked links path[0]).length = 1 ∧ (linked links path[i + 1]).length = 1

/-- A loop of three nodes or more, where each has two links. -/
def Loop (links : Links) (path : List Edge) : Prop :=
  Thread links path ∧ (∃ i, ∃ hi : i + 3 = path.length, path[0] ∈ linked links path[i + 2]) ∧
    ∀ e ∈ path, (linked links e).length = 2

/-- Between the ends of a line each node has two links. -/
theorem Line.exists_mid (h : Strings links) (hp : Line links path) : ∃ a mid b, path = a :: (mid ++ [b]) ∧
    (linked links a).length = 1 ∧ (linked links b).length = 1 ∧ ∀ e ∈ mid, (linked links e).length = 2 := by
  obtain ⟨p, i, hi, ha, hb⟩ := hp
  match path, hi with
  | a :: rest, hi =>
    have hrest : rest ≠ [] := List.ne_nil_of_length_eq_add_one (Nat.succ.inj hi).symm
    obtain ⟨mid, b, rfl⟩ := (List.eq_nil_or_concat rest).resolve_left hrest
    obtain rfl : i = mid.length := by simpa using hi
    refine ⟨a, mid, b, by simp, ha, by simpa using hb, fun e he => ?_⟩
    obtain ⟨j, hj, rfl⟩ := List.mem_iff_getElem.1 he
    simpa [List.getElem_append_left hj] using p.length_inner h (i := j) (by omega)

section Trace

variable (h : Strings links) (hclosed : Closed links visited) (he : linked links e ≠ [])
  (hp : Followed links visited e path after)

include h hclosed hp

/-- A path over new nodes has no link to those visited before. -/
theorem Followed.notMem (hf : f ∈ path) (hx : x ∈ linked links f) : x ∉ visited := fun hv =>
  hp.fresh f hf (hclosed x hv f (h.symm hx))

/-- With all links of both ends on the path, all links of nodes visited are visited. -/
theorem Followed.closed (hi : i + 2 = path.length) (hfirst : ∀ f ∈ linked links path[0], f ∈ path)
    (hlast : ∀ f ∈ linked links path[i + 1], f ∈ path) : Closed links after := by
  intro x hx f hf
  refine (hp.mem_iff f).2 ?_
  rcases (hp.mem_iff x).1 hx with hx | hx
  · exact .inl (hclosed x hx f hf)
  · refine .inr ?_
    obtain ⟨j, hj, rfl⟩ := List.mem_iff_getElem.1 hx
    rcases j with _ | j
    · exact hfirst f hf
    · by_cases hend : j = i
      · subst hend
        exact hlast f hf
      · rcases hp.thread.inner h (i := j) (by omega) hf with rfl | rfl <;> exact List.getElem_mem _

include he

/-- What a finished path is like: it has a node after the first, and the links of its last node are on it. -/
theorem Followed.finished (hdone : ∃ z ∈ path.getLast?, ∀ f ∈ linked links z, f ∈ after) :
    ∃ i, ∃ hi : i + 2 = path.length, path[0] = e ∧ (∀ f ∈ linked links path[i + 1], f ∈ path) ∧
      ∀ f ∈ linked links path[i + 1], f = path[0] ∨ f = path[i] := by
  obtain ⟨z, hz, hdone⟩ := hdone
  rw [Option.mem_def, List.getLast?_eq_getElem?, List.getElem?_eq_some_iff] at hz
  obtain ⟨hlt, rfl⟩ := hz
  have hhead : path[0] = e := hp.head _ (by rw [List.head?_eq_getElem?]; exact List.getElem?_eq_getElem _)
  have hlinks : ∀ f ∈ linked links path[path.length - 1], f ∈ path := fun f hf =>
    ((hp.mem_iff f).1 (hdone f hf)).resolve_left (hp.notMem h hclosed (List.getElem_mem hlt) hf)
  obtain ⟨n, hn⟩ := Nat.exists_eq_succ_of_ne_zero (Nat.ne_zero_of_lt (List.length_pos_of_mem (List.getElem_mem hlt)))
  simp only [hn, Nat.succ_eq_add_one, Nat.add_sub_cancel] at hlinks
  rcases n with _ | i
  · -- Alone on its path, a node would be linked with itself.
    obtain ⟨f, hf⟩ := List.exists_mem_of_ne_nil _ he
    rw [← hhead] at hf
    obtain ⟨j, hj, rfl⟩ := List.mem_iff_getElem.1 (hlinks f hf)
    obtain rfl : j = 0 := by omega
    exact absurd rfl (h.ne hf)
  · exact ⟨i, hn.symm, hhead, hlinks, fun f hf => hp.thread.last h hn.symm hf (hlinks f hf)⟩

/-- Traced from a node with a single link, a path is a whole line. -/
theorem Followed.line (hone : (linked links e).length = 1) (hdone : ∃ z ∈ path.getLast?, ∀ f ∈ linked links z, f ∈ after) :
    Line links path ∧ Closed links after := by
  obtain ⟨i, hi, hhead, hlinks, hlast⟩ := hp.finished h hclosed he hdone
  have hsecond : ∀ f ∈ linked links path[0], f = path[1] := fun f hf =>
    eq_of_single (hhead ▸ hone) hf (hp.thread.link (by omega))
  have hback : path[i] ∈ linked links path[i + 1] := h.symm (hp.thread.link (by omega))
  -- The first node is the last one's link only if it is the one before it.
  have honly : ∀ f ∈ linked links path[i + 1], f = path[i] := fun f hf => by
    rcases hlast f hf with rfl | rfl
    · have := hp.thread.nodup.getElem_inj_iff.1 (hsecond _ (h.symm hf))
      congr 1
      omega
    · rfl
  have hend : (linked links path[i + 1]).length = 1 := by
    have hsub : linked links path[i + 1] ⊆ [path[i]] := fun f hf => List.mem_singleton.2 (honly f hf)
    exact le_antisymm (List.subperm_of_subset (h.nodup _) hsub).length_le (List.length_pos_of_mem hback)
  refine ⟨⟨hp.thread, i, hi, hhead ▸ hone, hend⟩, hp.closed h hclosed hi (fun f hf => ?_) hlinks⟩
  exact hsecond f hf ▸ List.getElem_mem _

/-- Traced where all new nodes have two links, a path is a loop. -/
theorem Followed.loop (htwo : ∀ f ∉ visited, linked links f ≠ [] → (linked links f).length = 2)
    (hdone : ∃ z ∈ path.getLast?, ∀ f ∈ linked links z, f ∈ after) : Loop links path ∧ Closed links after := by
  obtain ⟨i, hi, hhead, hlinks, hlast⟩ := hp.finished h hclosed he hdone
  have hdegree : ∀ f ∈ path, (linked links f).length = 2 := fun f hf => htwo f (hp.fresh f hf) (hp.links_ne f hf)
  -- The last node has two links on the path: the node before it and the first one.
  obtain ⟨x, y, hxy⟩ := List.length_eq_two.1 (hdegree path[i + 1] (List.getElem_mem _))
  have hne : x ≠ y := by
    have := h.nodup path[i + 1]
    rw [hxy] at this
    simpa using this
  have hback : path[0] ∈ linked links path[i + 1] ∧ path[0] ≠ path[i] := by
    rcases hlast x (by simp [hxy]) with hx | hx <;> rcases hlast y (by simp [hxy]) with hy | hy
    · exact absurd (hx.trans hy.symm) hne
    · exact ⟨hx ▸ by simp [hxy], fun e => hne (hx.trans (e.trans hy.symm))⟩
    · exact ⟨hy ▸ by simp [hxy], fun e => hne (hx.trans (e.symm.trans hy.symm))⟩
    · exact absurd (hx.trans hy.symm) hne
  obtain ⟨i, rfl⟩ : ∃ n, i = n + 1 := Nat.exists_eq_succ_of_ne_zero fun hzero => hback.2 (by simp only [hzero])
  refine ⟨⟨hp.thread, ⟨i, hi, hback.1⟩, hdegree⟩, hp.closed h hclosed hi (fun f hf => ?_) hlinks⟩
  have h1 : path[1] ≠ path[i + 1 + 1] := hp.thread.ne _ _ (by omega)
  rcases h.eq_or_eq (hp.thread.link (i := 0) (by omega)) (h.symm hback.1) h1 hf with rfl | rfl <;> exact List.getElem_mem _

end Trace

/-! ## All paths -/

variable {starts : Edge → Bool} {whole : List Edge → Prop} {l : List Edge} {paths : List (List Edge)}

/-- Where nodes are visited with all their links, and those of `visited` among them, a path traced from a start
to its end is a whole one. -/
def Traces (links : Links) (starts : Edge → Bool) (whole : List Edge → Prop) (visited : Std.HashSet Edge) : Prop :=
  ∀ {before after e path}, Closed links before → (∀ f ∈ visited, f ∈ before) → starts e = true → linked links e ≠ [] →
    Followed links before e path after → (∃ z ∈ path.getLast?, ∀ f ∈ linked links z, f ∈ after) →
      whole path ∧ Closed links after

/-- From its ends lines are traced. -/
theorem traces_line (h : Strings links) : Traces links (fun e => (linked links e).length = 1) (Line links) ∅ :=
  fun hb _ hs he hp hdone => hp.line h hb he (of_decide_eq_true hs) hdone

/-- From anywhere loops are traced when all ends are visited. -/
theorem traces_loop (h : Strings links) (hends : ∀ e, (linked links e).length = 1 → e ∈ visited) :
    Traces links (fun _ => true) (Loop links) visited := fun hb hsub _ he hp hdone => by
  refine hp.loop h hb he (fun f hf hne => ?_) hdone
  have := h.le_two f
  have := List.length_pos_iff.2 hne
  have : (linked links f).length ≠ 1 := fun hone => hf (hsub f (hends f hone))
  omega

/-- Whole paths over nodes not visited before, and the nodes visited after them. -/
structure Traced (links : Links) (whole : List Edge → Prop) (visited : Std.HashSet Edge) (paths : List (List Edge))
    (after : Std.HashSet Edge) : Prop where
  mem_iff : ∀ f, f ∈ after ↔ f ∈ visited ∨ f ∈ paths.flatten
  nodup : paths.flatten.Nodup
  links_ne : ∀ f ∈ paths.flatten, linked links f ≠ []
  fresh : ∀ f ∈ paths.flatten, f ∉ visited
  whole : ∀ path ∈ paths, whole path
  closed : Closed links after

theorem Traced.nil (hclosed : Closed links visited) : Traced links whole visited [] visited :=
  ⟨by simp, .nil, by simp, by simp, by simp, hclosed⟩

/-- A path and then those over what it leaves. -/
theorem Traced.cons {between : Std.HashSet Edge} (hp : Followed links visited e path between) (hw : whole path)
    (ht : Traced links whole between paths after) : Traced links whole visited (path :: paths) after where
  mem_iff f := by
    rw [ht.mem_iff, hp.mem_iff, List.flatten_cons, List.mem_append, or_assoc]
  nodup := by
    refine List.nodup_append.2 ⟨hp.thread.nodup, ht.nodup, ?_⟩
    rintro f hf _ hg rfl
    exact ht.fresh f hg ((hp.mem_iff f).2 (.inr hf))
  links_ne := List.forall_mem_append.2 ⟨hp.links_ne, ht.links_ne⟩
  fresh f hf hv := by
    rcases List.mem_append.1 hf with hf | hf
    · exact hp.fresh f hf hv
    · exact ht.fresh f hf ((hp.mem_iff f).2 (.inl hv))
  whole := List.forall_mem_cons.2 ⟨hw, ht.whole⟩
  closed := ht.closed

/-- Traced from all starts among some nodes, whole paths visit them all. -/
theorem traceFrom_spec (h : Strings links) (hsteps : Suffice steps links) (hclosed : Closed links visited)
    (htraces : Traces links starts whole visited) (hl : ∀ e ∈ l, linked links e ≠ []) :
    Traced links whole visited (traceFrom links steps starts visited l).1 (traceFrom links steps starts visited l).2 ∧
      ∀ e ∈ l, starts e = true → e ∈ (traceFrom links steps starts visited l).2 := by
  induction l generalizing visited with
  | nil => exact ⟨.nil hclosed, by simp⟩
  | cons e l ih =>
    obtain ⟨he, hl⟩ := List.forall_mem_cons.1 hl
    rw [traceFrom]
    split
    · next hstart =>
      rw [Bool.and_eq_true, Bool.not_eq_true', ← Bool.not_eq_true, ← Std.HashSet.mem_iff_contains] at hstart
      have hp := (follow_spec h he hstart.2 steps).1
      have hdone := follow_done h hsteps he hstart.2
      obtain ⟨hw, hclosed'⟩ := htraces hclosed (fun _ hf => hf) hstart.1 he hp hdone
      obtain ⟨ht, hall⟩ := ih hclosed'
        (fun hb hsub => htraces hb fun f hf => hsub f ((hp.mem_iff f).2 (.inl hf))) hl
      refine ⟨.cons hp hw ht, List.forall_mem_cons.2 ⟨fun _ => ?_, hall⟩⟩
      refine (ht.mem_iff e).2 (.inl ((hp.mem_iff e).2 (.inr ?_)))
      obtain ⟨z, hz, -⟩ := hdone
      obtain ⟨a, rest, ha⟩ := List.exists_cons_of_ne_nil (List.ne_nil_of_mem (List.mem_of_getLast? hz))
      obtain rfl := hp.head a (by rw [ha]; rfl)
      exact ha ▸ List.mem_cons_self
    · next hstart =>
      obtain ⟨ht, hall⟩ := ih hclosed htraces hl
      refine ⟨ht, List.forall_mem_cons.2 ⟨fun hs => (ht.mem_iff e).2 (.inl ?_), hall⟩⟩
      by_contra hv
      rw [Std.HashSet.mem_iff_contains, Bool.not_eq_true] at hv
      exact hstart (by simp [hs, hv])

/-! ## The paths of segments -/

variable {segments : List (Edge × Edge)}

theorem mem_withoutRepeats : e ∈ withoutRepeats l ↔ e ∈ l := by
  induction l with
  | nil => rfl
  | cons f l ih =>
    rw [List.mem_cons, ← ih]
    change e ∈ (if (withoutRepeats l).head? = some f then withoutRepeats l else f :: withoutRepeats l) ↔ _
    split
    · next hhead =>
      rw [iff_or_self]
      rintro rfl
      exact List.mem_of_head? hhead
    · exact List.mem_cons

/-- The nodes are those with links. -/
theorem mem_nodes : e ∈ nodes segments ↔ linked (linksOf segments) e ≠ [] := by
  rw [nodes, mem_withoutRepeats, List.mem_mergeSort, linked_linksOf, List.mem_flatMap, ne_eq, List.flatMap_eq_nil_iff,
    not_forall]
  simp only [not_forall, exists_prop]
  refine exists_congr fun s => and_congr_right fun _ => ?_
  simp only [partners, List.append_eq_nil_iff, not_and_or, List.mem_cons, List.not_mem_nil, or_false, eq_comm (a := e)]
  split <;> split <;> simp_all

/-- Lines and loops with each node on one of them, once. -/
structure Threaded (links : Links) (paths : List (List Edge × Bool)) : Prop where
  nodup : (paths.flatMap Prod.fst).Nodup
  mem_iff : ∀ e, e ∈ paths.flatMap Prod.fst ↔ linked links e ≠ []
  line : ∀ path, (path, false) ∈ paths → Line links path
  loop : ∀ path, (path, true) ∈ paths → Loop links path

/-- Whole lines, and whole loops over all that they leave. -/
theorem Traced.threaded {lines loops : List (List Edge)} {between : Std.HashSet Edge}
    (hlines : Traced links (Line links) ∅ lines between)
    (hloops : Traced links (Loop links) between loops after) (hall : ∀ e, linked links e ≠ [] → e ∈ after) :
    Threaded links (lines.map (·, false) ++ loops.map (·, true)) := by
  have hflat : (lines.map (·, false) ++ loops.map (·, true)).flatMap Prod.fst = lines.flatten ++ loops.flatten := by
    simp [List.flatMap_append, List.flatMap_map]
  refine ⟨?_, fun e => ?_, fun path hp => hlines.whole path (by simpa using hp),
    fun path hp => hloops.whole path (by simpa using hp)⟩
  · rw [hflat]
    refine List.nodup_append.2 ⟨hlines.nodup, hloops.nodup, ?_⟩
    rintro f hf _ hg rfl
    exact hloops.fresh f hg ((hlines.mem_iff f).2 (.inr hf))
  · rw [hflat, List.mem_append]
    refine ⟨fun he => he.elim (hlines.links_ne e) (hloops.links_ne e), fun he => ?_⟩
    rcases (hloops.mem_iff e).1 (hall e he) with hv | hv
    · exact .inl (((hlines.mem_iff e).1 hv).resolve_left Std.HashSet.not_mem_empty)
    · exact .inr hv

/-- The paths of segments are all lines between nodes with a single link and all loops over the others. -/
theorem threaded_paths (h : Strings (linksOf segments)) : Threaded (linksOf segments) (Isoline.paths segments) := by
  have hnodes : ∀ e ∈ nodes segments, linked (linksOf segments) e ≠ [] := fun e => mem_nodes.1
  have hsteps : Suffice (nodes segments).length (linksOf segments) := fun l hn hl =>
    (List.subperm_of_subset hn fun f hf => mem_nodes.2 (hl f hf)).length_le
  obtain ⟨hlines, hends⟩ := traceFrom_spec h hsteps closed_empty (traces_line h) hnodes
  have hleft := fun e hone => hends e (mem_nodes.2 (List.ne_nil_of_length_eq_add_one hone)) (decide_eq_true hone)
  obtain ⟨hloops, hall⟩ := traceFrom_spec h hsteps hlines.closed (traces_loop h hleft) hnodes
  exact hlines.threaded hloops fun e he => hall e (mem_nodes.2 he) rfl

end Isoline

end DelaunaySurface

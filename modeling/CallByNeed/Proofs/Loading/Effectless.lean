import CallByNeed.Proofs.Loading.Permuted
import CallByNeed.Proofs.Safety.Loading

/- The cells of a loaded heap are like themselves, and there is no effect among them. -/
namespace CallByNeed

/-- The cells of the heap, each with itself. No effect has been made. -/
def Heap.bond (h : Heap) : Bond where
  cells := fun r r' => r = r' ∧ r ∈ h.domain
  actions := fun _ _ => False

/-- What a loaded cell holds. -/
inductive CellState.Loaded (M : Manner) (B : Bond) : CellState → Prop where
  | made {c : CellState} (states : StateLike M B c c) : Loaded M B c
  | redirect {t : Ref} (known : B.cells t t) : Loaded M B (.redirect t)

theorem Heap.mem_domain_of_lt {h : Heap} {r : Ref} (inside : r.index < h.size) : r ∈ h.domain := by
  have found : h.cells[r.index]? = some h.cells[r.index] := Array.getElem?_eq_getElem inside
  exact ⟨_, by rw [Heap.state?, Heap.cell?, found]; rfl⟩

/-- What is built where like cells come to stand is like itself. -/
theorem Script.like_of_built {M : Manner} {B : Bond} {α : Type} {post : α → α → Prop} {s : Script α}
    {h k : Heap} {a : α} (alike : Alike M B post s s) (built : s.built h = some (a, k))
    (places : ∀ r : Ref, r.index < k.size → B.cells r r) :
    post a a ∧ ∀ r : Ref, h.size ≤ r.index → r.index < k.size →
      ∃ c, k.state? r = some c ∧ StateLike M B c c := by
  obtain ⟨_, k', count, again, results, abreast⟩ :=
    Script.built_abreast alike built h fun o before => places _ before
  cases built.symm.trans again
  refine ⟨results, fun r new inside => ?_⟩
  have size := abreast.size
  obtain ⟨c, c', found, found', like⟩ := abreast.cells (r.index - h.size) (by omega)
  rw [Nat.add_sub_of_le new] at found found'
  cases found.symm.trans found'
  exact ⟨c.state, by rw [Heap.state?, found]; rfl, like.state⟩

theorem exists_mem_zip {α β : Type} {as : List α} {bs : List β} (count : as.length = bs.length)
    {a : α} (mem : a ∈ as) : ∃ b, (a, b) ∈ as.zip bs := by
  obtain ⟨i, bound, rfl⟩ := List.getElem_of_mem mem
  have inside : i < (as.zip bs).length := by
    rw [List.length_zip]
    omega
  have pair := List.getElem_mem inside
  rw [List.getElem_zip] at pair
  exact ⟨_, pair⟩

namespace Program

section
variable {M : Manner} {B : Bond} {p : Program} {handles : Handles} {meanings : List Meaning}
variable {exprs : List (Expr × Bool)} {cells : List Ref} {outputs : List Output} {h₀ h₁ h₂ : Heap}

/-- What has been resolved is like itself if the handles are. -/
theorem Loads.likes (loads : p.Loads handles meanings exprs cells outputs h₀ h₁ h₂)
    (allows : M.Allows handles p.globals) (ties : B.Ties handles) :
    (∀ x ∈ meanings, MeaningLike M B x x) ∧ ∀ o ∈ exprs, ExprLike M B 0 o.1 o.1 := by
  constructor
  · intro x mem
    obtain ⟨d, member, resolved⟩ := exists_of_forall₂ loads.resolved.flip mem
    refine Definition.like_resolve_self ties (allows.subset fun name named => ?_) resolved
    exact List.mem_append_left _ (List.mem_flatMap.2 ⟨_, member, named⟩)
  · intro o mem
    obtain ⟨node, member, resolved⟩ := exists_of_forall₂ (forall₂_of_mapM loads.shown).flip mem
    obtain ⟨e, value_ok, same⟩ := Except.ok_of_bind resolved
    cases same
    refine Node.like_resolve_self ties (allows.subset fun name named => ?_) value_ok
    exact List.mem_append_right _ (List.mem_flatMap.2 ⟨_, member, named⟩)

/-- What stands for the definitions is known, and all cells but the handles are like themselves. -/
theorem Loads.built_like (loads : p.Loads handles meanings exprs cells outputs h₀ h₁ h₂)
    (meanings_like : ∀ x ∈ meanings, MeaningLike M B x x)
    (exprs_like : ∀ o ∈ exprs, ExprLike M B 0 o.1 o.1)
    (places : ∀ r : Ref, r.index < h₂.size → B.cells r r) :
    List.Forall₂ B.cells cells cells ∧ ∀ r : Ref, h₀.size ≤ r.index → r.index < h₂.size →
      ∃ c, h₂.state? r = some c ∧ StateLike M B c c := by
  have grows := (Script.kept_of_built loads.listed).1
  have alike : Alike M B (List.Forall₂ B.cells)
      (meanings.mapM build : Script (List Ref)) (meanings.mapM build) :=
    Alike.mapM (fun _ _ like => alike_build like) (List.forall₂_same.2 meanings_like)
  have shown : Alike M B (List.Forall₂ fun o o' : Output => B.cells o.cell o'.cell)
      (showAll exprs) (showAll exprs) := by
    refine Alike.mapM (R := fun o o' => o = o' ∧ ExprLike M B 0 o.1 o'.1) ?_
      (List.forall₂_same.2 fun o mem => ⟨rfl, exprs_like o mem⟩)
    rintro o _ ⟨rfl, like⟩
    exact (Expr.alike_interpret .nil like).bind fun r r' cells => .pure cells
  obtain ⟨known, made⟩ := Script.like_of_built alike loads.built fun r inside => places r (by omega)
  obtain ⟨_, made'⟩ := Script.like_of_built shown loads.listed places
  refine ⟨known, fun r first inside => ?_⟩
  by_cases outer : h₁.size ≤ r.index
  · exact made' r outer inside
  · obtain ⟨c, found, like⟩ := made r first (by omega)
    refine ⟨c, ?_, like⟩
    rw [← found, Heap.state?, Heap.state?, loads.kept.2 (by omega)]

end

variable {M : Manner} {p : Program} {m : Module} {h : Heap}

/-- Each cell of a loaded program is like itself, though no effect is known. -/
theorem effectless_of_load (permits : ∀ b, p.Uses b → M.Permits b.isEffect b)
    (e : p.load {} = .ok (m, h)) :
    ∀ r ∈ h.domain, ∃ c, h.state? r = some c ∧ c.Loaded M h.bond := by
  obtain ⟨meanings, exprs, cells, h₀, h₁, h₂, loads, rfl⟩ := loads_of_load e
  have count : (m.definitions.map Prod.snd).length = cells.length := by
    rw [List.length_map, loads.counts.1, loads.counts.2]
  obtain ⟨redirects, others⟩ := state?_fillAll loads.handled.nodup count loads.vacant
  have size := size_fillAll (m.definitions.map Prod.snd) cells h₂
  generalize fillAll (m.definitions.map Prod.snd) cells h₂ = h at redirects others size ⊢
  have places : ∀ r : Ref, r.index < h₂.size → h.bond.cells r r := fun r inside =>
    ⟨rfl, Heap.mem_domain_of_lt (size ▸ inside)⟩
  have ties : h.bond.Ties m.definitions := fun q mem =>
    places _ (Heap.lt_size_of_state (loads.vacant _ (List.mem_map_of_mem mem)))
  obtain ⟨meanings_like, exprs_like⟩ := loads.likes (allows_of_uses loads.handled permits) ties
  obtain ⟨known, made⟩ := loads.built_like meanings_like exprs_like places
  rintro r ⟨c, state⟩
  by_cases mine : r ∈ m.definitions.map Prod.snd
  · obtain ⟨t, pair⟩ := exists_mem_zip count mine
    exact ⟨_, redirects _ pair, .redirect (List.forall₂_same.1 known t (List.of_mem_zip pair).2)⟩
  · rw [others r mine] at state ⊢
    have older : h₀.size ≤ r.index := by
      by_contra first
      rw [Heap.state?, loads.kept.1 (by omega), ← Heap.state?, loads.handled.others r mine] at state
      cases state
    obtain ⟨c, found, like⟩ := made r older (Heap.lt_size_of_state state)
    exact ⟨c, found, .made like⟩

end Program
end CallByNeed

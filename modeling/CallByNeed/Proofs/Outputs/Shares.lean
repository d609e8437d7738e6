import CallByNeed.Proofs.Outputs.Kept
import Mathlib.Algebra.GroupWithZero.Nat

/- Who may still start an item. The share of a thread in an item is 1 if the thread will start it, or
   will start whoever does; together with the times the item has been started it never grows, and
   while nothing has failed it is not lost either. Permits are counted likewise. -/
namespace CallByNeed
namespace Output

def Item.place : Item → Nat
  | .output place | .element place _ => place

def Mark.share (item : Item) : Mark → Nat
  | .main next => if next ≤ item.place then 1 else 0
  | .waits first later => (if first = item then 1 else 0) + later.share item
  | .walks place reached =>
    match item with
    | .output _ => 0
    | .element p index => if p = place ∧ reached ≤ index then 1 else 0
  | .performs _ | .works => 0

/-- How often an item has been started. -/
def Journal.started (x : Journal) (item : Item) : Nat := (x.begun.map Prod.fst).count item

def share (item : Item) (ts : List Noted) (x : Journal) : Nat :=
  (ts.map (·.mark.share item)).sum + x.started item

/-- An item that must be started unless something fails: a plain output, or an element that is not
    known to be behind the end of its list. -/
inductive Item.Wanted (outputs : List Output) (h : Heap) : Item → Prop where
  | output {place : Nat} {cell : Ref} (plain : outputs[place]? = some ⟨cell, false⟩) :
      Wanted outputs h (.output place)
  | element {place index : Nat} {list : Ref} (expanded : outputs[place]? = some ⟨list, true⟩)
      (within : ∀ heads, h.Elements list heads → index < heads.length) :
      Wanted outputs h (.element place index)

section
variable {E : Engine} {outputs : List Output} {h h' : Heap} {item : Item}
variable {x x' : Journal} {t : Noted} {ts before after : List Noted}

theorem Item.Wanted.earlier (wanted : item.Wanted outputs h') (before : h.Before h') :
    item.Wanted outputs h := by
  cases wanted with
  | output plain => exact .output plain
  | element expanded within =>
    exact .element expanded fun heads elements => within heads (elements.before before)

/-- What is wanted has a place in the list of outputs. -/
theorem Item.Wanted.place_lt (wanted : item.Wanted outputs h) : item.place < outputs.length := by
  cases wanted with
  | output plain => exact (List.getElem?_eq_some_iff.1 plain).1
  | element expanded _ => exact (List.getElem?_eq_some_iff.1 expanded).1

theorem started_append (begun : List (Item × Ref)) (first item : Item) (cell : Ref) :
    ((begun ++ [(first, cell)]).map Prod.fst).count item =
      (begun.map Prod.fst).count item + if first = item then 1 else 0 := by
  simp [List.count_append, List.count_singleton]

/-- The main loop goes on to the next output. -/
theorem share_main (next : Nat) (item : Item) :
    Mark.share item (.main next) =
      (if item.place = next then 1 else 0) + Mark.share item (.main (next + 1)) := by
  simp only [Mark.share]
  split <;> split <;> split <;> omega

/-- A walker goes on to the next element. -/
theorem share_walks (place reached : Nat) (item : Item) :
    Mark.share item (.walks place reached) =
      (if .element place reached = item then 1 else 0) +
        Mark.share item (.walks place (reached + 1)) := by
  cases item with
  | output p => simp [Mark.share]
  | element p index =>
    simp only [Mark.share, Item.element.injEq]
    split <;> split <;> split <;> omega

/-- The walker of an expanded output starts nothing of other outputs. -/
theorem share_walks_le (next : Nat) (item : Item) :
    Mark.share item (.walks next 0) ≤ if item.place = next then 1 else 0 := by
  cases item with
  | output p => simp [Mark.share]
  | element p index => by_cases same : p = next <;> simp [Mark.share, Item.place, same]

/-- All that is wanted of an expanded output is an element of it. -/
theorem share_walks_ge {next : Nat} {list : Ref} (expanded : outputs[next]? = some ⟨list, true⟩)
    (wanted : item.Wanted outputs h) :
    (if item.place = next then 1 else 0) ≤ Mark.share item (.walks next 0) := by
  cases wanted with
  | @output place cell plain =>
    have other : place ≠ next := by
      rintro rfl
      rw [plain] at expanded
      cases expanded
    simp [Item.place, other]
  | @element place index _ _ _ =>
    by_cases same : place = next <;> simp [Mark.share, Item.place, same]

/-- All that is wanted of a plain output is the output itself. -/
theorem share_output_ge {next : Nat} {cell : Ref} (plain : outputs[next]? = some ⟨cell, false⟩)
    (wanted : item.Wanted outputs h) :
    (if item.place = next then 1 else 0) ≤ if Item.output next = item then 1 else 0 := by
  cases wanted with
  | output plain' => simp [Item.place, eq_comm]
  | @element place index list expanded _ =>
    have other : place ≠ next := by
      rintro rfl
      rw [plain] at expanded
      cases expanded
    simp [Item.place, other]

/-- Nothing is wanted behind the end of a list. -/
theorem share_walked {place : Nat} {list : Ref} {heads : List Ref}
    (expanded : outputs[place]? = some ⟨list, true⟩) (elements : h.Elements list heads)
    (wanted : item.Wanted outputs h) : Mark.share item (.walks place heads.length) = 0 := by
  cases wanted with
  | output plain => rfl
  | @element place' index list' expanded' within =>
    have none : ¬ (place' = place ∧ heads.length ≤ index) := by
      rintro ⟨rfl, behind⟩
      rw [expanded] at expanded'
      cases expanded'
      have := within heads elements
      omega
    simp [Mark.share, none]

namespace Noted

/-- No turn makes anybody else start an item. -/
theorem Goes.share_le (goes : t.Goes E outputs x ts x') (item : Item) :
    (ts.map (·.mark.share item)).sum + x'.started item ≤ t.mark.share item + x.started item := by
  cases goes with
  | force | reach | performed | failed => simp [Journal.started]
  | finish | giveUp | walked | lost | leave => simp [Journal.started]
  | @expand next list expanded =>
    have walks := share_walks_le next item
    have total := share_main next item
    simp only [List.map_cons, List.map_nil, List.sum_cons, List.sum_nil]
    omega
  | @offer next cell plain =>
    have first : (if Item.output next = item then 1 else 0) ≤ if item.place = next then 1 else 0 := by
      cases item <;> simp [Item.place, eq_comm]
    have total := share_main next item
    simp only [List.map_cons, List.map_nil, List.sum_cons, List.sum_nil, Mark.share] at total ⊢
    omega
  | begin permit =>
    simp only [List.map_cons, List.map_nil, List.sum_cons, List.sum_nil, Mark.share,
      Journal.started, started_append]
    omega
  | @element head tail place reached =>
    have total := share_walks place reached item
    simp only [List.map_cons, List.map_nil, List.sum_cons, List.sum_nil, Mark.share] at total ⊢
    omega

/-- As long as nothing fails, somebody will start what is wanted, or has started it. -/
theorem Goes.share_ge (goes : t.Goes E outputs x ts x')
    (fits : Fits outputs x.shared.store.heap x.begun t.thread t.mark)
    (fine : x'.shared.failure = none) (wanted : item.Wanted outputs x'.shared.store.heap) :
    t.mark.share item + x.started item ≤ (ts.map (·.mark.share item)).sum + x'.started item := by
  cases goes with
  | force | reach | performed | leave => simp [Journal.started, Mark.share]
  | @finish next all =>
    have none : ¬ next ≤ item.place :=
      Nat.not_le.2 (Nat.lt_of_lt_of_le wanted.place_lt all)
    simp [Mark.share, none]
  | giveUp failed => simp [fine] at failed
  | lost | failed => simp [Shared.record] at fine
  | walked =>
    cases fits with
    | walk expanded lists tells =>
      have ends := Script.yields_of_reads_forceList tells.done
      simp [share_walked expanded ⟨_, lists, ends⟩ wanted, Journal.started]
  | @expand next list expanded =>
    have walks := share_walks_ge expanded wanted
    have total := share_main next item
    simp only [List.map_cons, List.map_nil, List.sum_cons, List.sum_nil]
    omega
  | @offer next cell plain =>
    have first := share_output_ge plain wanted
    have total := share_main next item
    simp only [List.map_cons, List.map_nil, List.sum_cons, List.sum_nil, Mark.share] at total ⊢
    omega
  | begin permit =>
    simp only [List.map_cons, List.map_nil, List.sum_cons, List.sum_nil, Mark.share,
      Journal.started, started_append]
    omega
  | @element head tail place reached =>
    have total := share_walks place reached item
    simp only [List.map_cons, List.map_nil, List.sum_cons, List.sum_nil, Mark.share] at total ⊢
    omega

/-- A failure stays. -/
theorem Goes.fine (goes : t.Goes E outputs x ts x') (fine : x'.shared.failure = none) :
    x.shared.failure = none := by
  cases goes with
  | lost | failed => simp [Shared.record] at fine
  | _ => exact fine

/-- Whoever takes a permit holds it until it is given back. -/
theorem Goes.permits (goes : t.Goes E outputs x ts x')
    (fits : Fits outputs x.shared.store.heap x.begun t.thread t.mark) :
    x'.shared.free + ts.countP (·.thread.holdsPermit) =
      x.shared.free + [t].countP (·.thread.holdsPermit) := by
  cases goes with
  | force forces => cases forces <;> rfl
  | giveUp failed idle => simp [idle.2]
  | begin permit =>
    cases fits with
    | acquire _ free _ =>
      have takes (w : Runner Unit) : (Thread.perform w).holdsPermit = true := rfl
      have waits (cell : Ref) (next : Thread) : (Thread.acquire cell next).holdsPermit = false := rfl
      simp [takes, waits, free, permit]
  | leave => simp [Thread.holdsPermit]
  | lost | failed => simp [Thread.holdsPermit, Shared.record]
  | finish | expand | offer | reach | element | walked | performed =>
    simp [Thread.holdsPermit]

end Noted

/-- Each item is started once at most, and what is wanted is not lost. -/
structure Shares (outputs : List Output) (permits : Nat) (ts : List Noted) (x : Journal) : Prop where
  permits : x.shared.free + ts.countP (·.thread.holdsPermit) = permits
  once : ∀ item, share item ts x ≤ 1
  wanted : x.shared.failure = none → ∀ item : Item,
    item.Wanted outputs x.shared.store.heap → 1 ≤ share item ts x

theorem shares_of_goes {permits : Nat} (shares : Shares outputs permits (before ++ t :: after) x)
    (goes : t.Goes E outputs x ts x')
    (fits : Fits outputs x.shared.store.heap x.begun t.thread t.mark) (later : x.Before x') :
    Shares outputs permits (before ++ ts ++ after) x' := by
  have total (item : Item) (ts : List Noted) (x : Journal) :
      share item (before ++ ts ++ after) x =
        (before.map (·.mark.share item)).sum + (after.map (·.mark.share item)).sum +
          ((ts.map (·.mark.share item)).sum + x.started item) := by
    simp only [share, List.map_append, List.sum_append]
    omega
  have was (item : Item) : share item (before ++ t :: after) x =
      (before.map (·.mark.share item)).sum + (after.map (·.mark.share item)).sum +
        (t.mark.share item + x.started item) := by
    simp only [share, List.map_append, List.map_cons, List.sum_append, List.sum_cons]
    omega
  constructor
  case permits =>
    have held := shares.permits
    have local_held := goes.permits fits
    simp only [List.countP_append, List.countP_cons, List.countP_nil] at held local_held ⊢
    omega
  case once =>
    intro item
    have once := shares.once item
    have less := goes.share_le item
    rw [was] at once
    rw [total]
    omega
  case wanted =>
    intro fine item wanted
    have least := shares.wanted (goes.fine fine) item (wanted.earlier later.heap)
    have more := goes.share_ge fits fine wanted
    rw [was] at least
    rw [total]
    omega

end
end Output
end CallByNeed

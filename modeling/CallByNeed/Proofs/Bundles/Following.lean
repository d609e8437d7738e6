import CallByNeed.Proofs.Bundles.Lockstep

/- Runs on paired stores. Where like scripts start on paired stores and one of them comes to an end,
   the other one comes to a like end, in the same world. -/
namespace CallByNeed
open Relation (ReflTransGen)

namespace Runner
variable {α β : Type}

/-- One step of a runner, with its store. -/
def Steps (E : Engine) (x y : Runner α × Store) : Prop := x.1.Advance E x.2 y.1 y.2

inductive Paired (T : Pairing) (L : Set Ref) (post : α → β → Prop) :
    Runner α → Store → Runner β → Store → Prop where
  | ready {held : Held} {script : Script α} {script' : Script β} {s s' : Store}
    (mine : held.Bonded T.bond)
      (scripts : script.Bonded .loaded T.bond (fun _ => Unchanged .loaded post .nothing) held script')
      (stores : s.Paired T L s') : Paired T L post (.ready script) s (.ready script') s'
  | forcing {how : Demand} {r q : Ref} {next : Value → Script α} {next' : Value → Script β}
      {held : Held} {c c' : Control} {frames frames' : List Frame} {s s' : Store}
        (cells : T.cells r q)
      (mine : held.Bonded T.bond)
      (rest : ∀ B, T.bond ≤ B → ∀ v v', ValueLike .loaded B v v' →
        ScriptLike .loaded B (Unchanged .loaded post .nothing) held (next v) (next' v'))
      (engines : Engine.Paired T L (c, frames, s) (c', frames', s')) :
      Paired T L post (.forcing how r next c frames) s (.forcing how q next' c' frames') s'

/-- What the engine of a runner keeps to. -/
def Intact (w : Runner α) (s : Store) : Prop :=
  match w with
  | .ready _ => True
  | .forcing _ _ _ c frames => Engine.Sound (c, frames, s)

section
variable {E : Engine} {T U : Pairing} {L : Set Ref} {post : α → β → Prop} {s s₁ s' t : Store}
variable {w w₁ : Runner α} {w' : Runner β} {o : Except Fault α} {x y : Runner α × Store}
variable {world world' : World}

theorem Advance.taken (step : w.Advance E s w₁ s₁) : Steps E (w, s) (w₁, s₁) := step

theorem intact_demand (how : Demand) (r : Ref) (next : Value → Script α) (s : Store) :
    (Runner.demand how r next).Intact s :=
  ⟨by simp [Heap.Forcing, Control.cells], List.nodup_nil, trivial⟩

theorem Intact.step (sound : w.Intact s) (step : w.Advance E s w₁ s₁) : w₁.Intact s₁ := by
  cases step with
  | demand => exact intact_demand _ _ _ _
  | act => trivial
  | engine step => exact Engine.Sound.move sound step.move
  | resume => trivial
  | perform => exact intact_demand _ _ _ _

theorem Intact.steps (sound : w.Intact s) (steps : ReflTransGen (Steps E) (w, s) x) :
    x.1.Intact x.2 := by
  induction steps with
  | refl => exact sound
  | tail _ step ih => exact ih.step step

theorem Intact.before (sound : w.Intact s) (step : w.Advance E s w₁ s₁) :
    s.heap.Before s₁.heap := by
  cases step with
  | act => exact Store.before_act _ _
  | engine step => exact Engine.Sound.before sound step.move
  | demand | resume | perform => exact s.heap.before_refl

/-- A runner that asks goes on as it was, whatever the answer. -/
theorem Intact.ask {q : Request} {next : q.Answer → Runner α} (sound : w.Intact s)
    (step : w.step E s = .ask q next s₁) (a : q.Answer) : s₁ = s ∧ (next a).Intact s := by
  obtain ⟨rfl, ⟨rest, rfl, rfl⟩ | ⟨how, r, rest, cell, site, script, frames, rfl, rfl⟩⟩ :=
    Runner.of_ask step
  · exact ⟨rfl, trivial⟩
  · obtain ⟨forcing, apart, asked⟩ := sound
    exact ⟨rfl, forcing, apart, asked.answer fun _ path => path⟩

theorem Leaves.before (leaves : w.Leaves E s world o t world') (sound : w.Intact s) :
    s.heap.Before t.heap := by
  refine Leaves.induct (motive := fun w s _ => w.Intact s → s.heap.Before t.heap) ?_ ?_ ?_
    leaves sound
  · exact fun _ => t.heap.before_refl
  · exact fun step _ ih sound => (sound.before step).trans (ih (sound.step step))
  · intro w s s₁ world q next step ih sound
    obtain ⟨rfl, asked⟩ := sound.ask step (World.answer q world).1
    exact ih asked

theorem Leaves.of_steps (steps : ReflTransGen (Steps E) x y)
    (rest : y.1.Leaves E y.2 world o t world') : x.1.Leaves E x.2 world o t world' := by
  induction steps using ReflTransGen.head_induction_on with
  | refl => exact rest
  | head step _ ih => exact .of_advance step ih

theorem steps_of_moves {how : Demand} {r : Ref} {next : Value → Script α}
    {c d : Control × List Frame × Store} (moves : ReflTransGen E.Moves c d) :
    ReflTransGen (Steps E) (.forcing how r next c.1 c.2.1, c.2.2)
      (.forcing how r next d.1 d.2.1, d.2.2) := by
  induction moves with
  | refl => exact .refl
  | tail _ move ih => exact ih.tail (Advance.engine move)

/-- Whatever step one runner takes, both of them come to a pair again. -/
theorem Paired.follow (roomy : E.Roomy) (paired : Paired T L post w s w' s') (sound : w.Intact s)
    (sound' : w'.Intact s') (lists : s.heap.KeepsLists L) (step : w.Advance E s w₁ s₁) :
    ∃ U z z', ReflTransGen (Steps E) (w₁, s₁) z ∧ ReflTransGen (Steps E) (w', s') z' ∧
      Paired U L post z.1 z.2 z'.1 z'.2 := by
  cases paired with
  | ready mine scripts stores =>
    have first := scripts T.bond (Bond.le_refl _)
    cases step with
    | demand =>
      cases first with
      | demand hosted cells rest =>
      have engines : Engine.Paired T L (.enter _, [], s) (.enter _, [], s') :=
        ⟨.enter cells, .nil, stores⟩
      refine ⟨T, _, _, .refl, .single Advance.demand.taken, .forcing cells mine ?_ engines⟩
      intro B more v v' values
      cases scripts B more with
      | demand _ _ rest => exact rest v v' values
    | act =>
      obtain ⟨a', next', rfl, _, held', _, mine', scripts', U, rfl, holds⟩ :=
        (Pairing.keeps L [] []).act nofun trivial ⟨T, rfl, stores, .nil, by simp [Heap.Forcing],
          by simp [Heap.Forcing]⟩ mine scripts
      exact ⟨U, _, _, .refl, .single Advance.act.taken, .ready mine' scripts' holds.stores⟩
  | @forcing how r q next next' held c c' frames frames' _ _ cells mine rest engines =>
    cases step with
    | engine step =>
      obtain ⟨U, z, z', grows, moves, moves', reached⟩ :=
        engines.follow roomy sound sound' lists step.move
      exact ⟨U, _, _, steps_of_moves moves, steps_of_moves moves', .forcing (grows.1 _ _ cells)
        (mine.mono grows) (fun B more => rest B (Bond.le_trans grows more)) reached⟩
    | resume reply =>
      obtain ⟨control, stack, stores⟩ := engines
      obtain rfl := Engine.stacked_nil stack
      cases control with
      | give values =>
        have site := stores.heap.sites cells
        rcases how.reply_loaded (s.heap.site? r) values with
          ⟨u, u', left, right, resumed⟩ | ⟨_, _, left, _⟩
        · rw [left] at reply
          cases reply
          rw [site] at right
          refine ⟨T, _, _, .refl, .single (Advance.resume right).taken,
            .ready mine (fun B more => ?_) stores⟩
          exact rest B more _ _ (resumed.mono more)
        · rw [left] at reply
          cases reply
    | perform reply =>
      obtain ⟨control, stack, stores⟩ := engines
      obtain rfl := Engine.stacked_nil stack
      cases control with
      | give values =>
        have site := stores.heap.sites cells
        rcases how.reply_loaded (s.heap.site? r) values with
          ⟨_, _, left, _⟩ | ⟨action, action', left, right, actions⟩
        · rw [left] at reply
          cases reply
        · rw [left] at reply
          cases reply
          rw [site] at right
          exact ⟨T, _, _, .refl, .single (Advance.perform right).taken,
            .forcing actions mine rest ⟨.enter actions, .nil, stores⟩⟩

/-- Where one of two runners has ended, so has the other one, and alike. -/
theorem Paired.ended (paired : Paired T L post (.ready (Script.ended o)) s w' s') :
    ∃ o', w' = .ready (Script.ended o') ∧ ResultLike .loaded post o o' := by
  cases paired with
  | ready mine scripts stores =>
    have first := scripts T.bond (Bond.le_refl _)
    cases o with
    | ok a =>
      cases first with
      | done results => exact ⟨_, rfl, results.2⟩
    | error e =>
      cases first with
      | raise results => exact ⟨_, rfl, results.2⟩

/-- Where one of two runners asks, the other one asks the same. -/
theorem Paired.ask {q : Request} {next : q.Answer → Runner α} (paired : Paired T L post w s w' s')
    (step : w.step E s = .ask q next s₁) : ∃ next', w'.step E s' = .ask q next' s' ∧
      ∀ a, Paired T L post (next a) s (next' a) s' := by
  obtain ⟨rfl, ⟨rest, rfl, rfl⟩ | ⟨how, r, rest, cell, site, script, frames, rfl, rfl⟩⟩ :=
    Runner.of_ask step
  · cases paired with
    | ready mine scripts stores =>
      have first := scripts T.bond (Bond.le_refl _)
      cases first with
      | ask hosted _ =>
        refine ⟨_, rfl, fun a => .ready mine (fun B more => ?_) stores⟩
        cases scripts B more with
        | ask _ rest => exact rest a
  · cases paired with
    | forcing cells mine rest engines =>
      obtain ⟨control, stack, stores⟩ := engines
      cases control with
      | run site running mine' scripts =>
        have first := scripts T.bond (Bond.le_refl _)
        cases first with
        | ask hosted _ =>
          refine ⟨_, rfl, fun a => .forcing cells mine rest
            ⟨.run site running mine' (fun B more => ?_), stack, stores⟩⟩
          cases scripts B more with
          | ask _ rest => exact rest a

/-- Where one of two runners comes to an end, so does the other one, and alike. -/
theorem Paired.leaves (roomy : E.Roomy) (paired : Paired T L post w s w' s') (sound : w.Intact s)
    (sound' : w'.Intact s') (leaves : w.Leaves E s world o t world') (lists : t.heap.KeepsLists L) :
    ∃ o' t', w'.Leaves E s' world o' t' world' ∧ ResultLike .loaded post o o' := by
  -- The first runner may still be on its way to where the two are paired.
  refine Leaves.induct (motive := fun w s world => ∀ z T w' s', ReflTransGen (Steps E) (w, s) z →
    Paired T L post z.1 z.2 w' s' → w.Intact s → w'.Intact s' →
    ∃ o' t', w'.Leaves E s' world o' t' world' ∧ ResultLike .loaded post o o') ?_ ?_ ?_
    leaves (w, s) T w' s' .refl paired sound sound'
  · intro z T w' s' way paired _ _
    rcases way.cases_head with rfl | ⟨z₁, first, _⟩
    · obtain ⟨o', rfl, results⟩ := paired.ended
      exact ⟨o', s', leaves_of_ended o' s' _, results⟩
    · have step : (Runner.ready (Script.ended o)).Advance E t z₁.1 z₁.2 := first
      cases o <;> cases step
  · intro w w₁ s s₁ world step rest ih z T w' s' way paired sound sound'
    rcases way.cases_head with rfl | ⟨z₁, first, way⟩
    · have before := (Leaves.of_advance step rest).before sound
      obtain ⟨U, z, z', left, right, reached⟩ :=
        paired.follow roomy sound sound' (lists.earlier before) step
      obtain ⟨o', t', leaves, results⟩ :=
        ih z U z'.1 z'.2 left reached (sound.step step) (sound'.steps right)
      exact ⟨o', t', leaves.of_steps right, results⟩
    · obtain ⟨w₂, s₂⟩ := z₁
      have one := step_of_advance step
      rw [step_of_advance (show w.Advance E s w₂ s₂ from first)] at one
      cases one
      exact ih z T w' s' way paired (sound.step step) sound'
  · intro w s s₁ world q next step ih z T w' s' way paired sound sound'
    obtain ⟨rfl, asked⟩ := sound.ask step (World.answer q world).1
    rcases way.cases_head with rfl | ⟨z₁, first, _⟩
    · obtain ⟨next', step', each⟩ := paired.ask step
      obtain ⟨o', t', leaves, results⟩ := ih _ T _ _ .refl (each _) asked (sound'.ask step' _).2
      exact ⟨o', t', .of_ask step' leaves, results⟩
    · rw [step_of_advance (show w.Advance E s₁ z₁.1 z₁.2 from first)] at step
      cases step

end
end Runner
end CallByNeed

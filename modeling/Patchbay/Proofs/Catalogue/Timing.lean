import Patchbay.Proofs.Catalogue.Steady
import Patchbay.Proofs.Number.Sum

/-!
# When units of the catalogue send and schedule

What a unit of the catalogue sends when it receives a message, or when an event of its own is due, has
the time of that message (`posts_receive`, `posts_emit`). What it schedules lies a while later: at
least a millisecond, unless it is a `delay` that is set to less. No message but one at its right inlet
changes what a `delay` is set to (`ends_receive`, `ends_emit`).
-/

namespace Patchbay.CatalogueUnit

open Catalogue

/-- Whether a unit may send a message at a time. -/
def Sends (u : CatalogueUnit) (time : Float) (name? : Option Symbol) (message : Message) : Prop :=
  message.timestamp = time ∧ ∀ name, name? = some name → u.calls? = some name

/-- Whether a unit may schedule a message when it receives one at a time. -/
def Schedules (u : CatalogueUnit) (time : Float) (message : Message) : Prop :=
  ∃ wait, message.timestamp = time + wait ∧ (1 ≤ wait ∨ u.delay? = some wait)

theorem one_le_maxDouble (x : Float) : 1 ≤ maxDouble x Metro.shortestInterval := by
  have hone : (Metro.shortestInterval : Float).isNaN = false := by decide +kernel
  have hle : (1 : Float) ≤ Metro.shortestInterval := by decide +kernel
  unfold maxDouble
  cases hx : x.isNaN with
  | true =>
    rw [if_pos rfl]
    exact hle
  | false =>
    rw [if_neg Bool.false_ne_true, hone, if_neg Bool.false_ne_true]
    split
    · exact hle
    · next h => exact Double.le_of_not_lt hx hone h

section Receive

variable (u : CatalogueUnit) (inlet : Nat) (message : Message)

theorem sends_outlet : u.Sends message.timestamp none message := ⟨rfl, fun _ h => by cases h⟩

variable {sent : Option Symbol → Message → Prop} {scheduled : Message → Prop}

/-- A right operand is heard in silence. -/
theorem posts_heed (op : Operator) (right : Float32) :
    (op.heed right message).Posts sent scheduled := by
  unfold Operator.heed
  split
  · exact ⟨⟩
  · split <;> exact ⟨⟩

theorem posts_tick (v : Metro) (time : Float) :
    (v.tick time).Posts (u.Sends time) (u.Schedules time) :=
  ⟨⟨_, rfl, .inl (one_le_maxDouble _)⟩, fun _ => ⟨⟨rfl, fun _ h => by cases h⟩, ⟨⟩⟩⟩

theorem posts_stop_metro (v : Metro) : v.stop.Posts sent scheduled := by
  unfold Metro.stop
  split
  · exact fun _ => ⟨⟩
  · exact ⟨⟩

theorem posts_stop_delay (v : Delay) : v.stop.Posts sent scheduled := by
  unfold Delay.stop
  split
  · exact fun _ => ⟨⟩
  · exact ⟨⟩

/-- Cancelling leaves what a `delay` is set to. -/
theorem ends_stop_delay (v : Delay) : v.stop.Ends fun v' => v'.delay = v.delay := by
  unfold Delay.stop
  split
  · exact fun _ => rfl
  · exact rfl

theorem posts_receive_messageOperator (v : MessageOperator) :
    (v.receive inlet message).Posts (u.Sends message.timestamp) scheduled := by
  have hlast : ∀ v : MessageOperator,
      (v.sendLast message.timestamp).Posts (u.Sends message.timestamp) scheduled :=
    fun v => ⟨⟨rfl, fun _ h => by cases h⟩, ⟨⟩⟩
  unfold MessageOperator.receive
  split
  · split
    · exact hlast _
    · split
      · exact hlast v
      · exact ⟨⟩
  · exact .map _ (posts_heed message v.op v.right)
  · exact ⟨⟩

theorem posts_receive_floatBox (v : FloatBox) :
    (v.receive inlet message).Posts (u.Sends message.timestamp) scheduled := by
  have hsend : ∀ (value : Float32) (next : FloatBox),
      (Script.send 0 (.float message.timestamp value) (.done next)).Posts (u.Sends message.timestamp)
        scheduled := fun _ _ => ⟨⟨rfl, fun _ h => by cases h⟩, ⟨⟩⟩
  unfold FloatBox.receive
  split
  · exact hsend _ _
  · split
    · exact hsend _ _
    · exact ⟨⟩
  · exact ⟨⟩
  · exact ⟨⟩

theorem posts_receive_metro (v : Metro) :
    (v.receive inlet message).Posts (u.Sends message.timestamp) (u.Schedules message.timestamp) := by
  unfold Metro.receive
  split
  · split
    · exact (posts_stop_metro v).bind (.of_forall (P := fun _ => True) (fun _ => ⟨⟩) _)
        fun v' _ => u.posts_tick v' message.timestamp
    · exact posts_stop_metro v
    · exact ⟨⟩
  · split <;> exact ⟨⟩
  · exact ⟨⟩

theorem posts_receive_delay (v : Delay) :
    (v.receive inlet message).Posts sent ((delay v).Schedules message.timestamp) := by
  unfold Delay.receive
  split
  · refine (posts_stop_delay v).bind (ends_stop_delay v) fun v' hv => ?_
    split
    · exact ⟨⟩
    · refine ⟨⟨v'.delay, rfl, .inr ?_⟩, fun _ => ⟨⟩⟩
      rw [delay?, hv]
  · split
    · exact .map _ (posts_stop_delay v)
    · exact ⟨⟩
  · exact ⟨⟩

theorem posts_receive (here : Surroundings) :
    (u.receive inlet message here).Posts (u.Sends message.timestamp)
      (u.Schedules message.timestamp) := by
  cases u with
  | hostInput | hostOutput | linkWriter | linkReader | table | tableReader | delayWriter | constant
  | ramp | oscillator | tableWriter | delayReader => exact ⟨⟩
  | streamOperator v =>
    refine .map _ ?_
    unfold StreamOperator.receive
    split
    · exact .map _ (posts_heed message v.op v.right)
    · exact ⟨⟩
  | messageOperator v => exact .map _ (posts_receive_messageOperator _ inlet message v)
  | port v =>
    refine .map _ ?_
    unfold Port.receive
    split
    · exact ⟨sends_outlet _ message, ⟨⟩⟩
    · exact ⟨⟩
  | floatBox v => exact .map _ (posts_receive_floatBox _ inlet message v)
  | metro v => exact .map _ (posts_receive_metro _ inlet message v)
  | delay v => exact .map _ (posts_receive_delay inlet message v)
  | print v => exact ⟨⟩
  | messageSender v =>
    refine .map _ ⟨⟨rfl, fun name h => ?_⟩, ⟨⟩⟩
    cases h
    rfl
  | messageReceiver v => exact .map _ ⟨sends_outlet _ message, ⟨⟩⟩

/-- A `delay` sends nothing when it receives a message. -/
theorem posts_receive_of_delay {wait : Float} (h : u.delay? = some wait) (here : Surroundings) :
    (u.receive inlet message here).Posts sent (u.Schedules message.timestamp) := by
  cases u with
  | delay v => exact .map _ (posts_receive_delay inlet message v)
  | _ => cases h

/-- A unit that computes neither sends nor schedules anything when it receives a message. -/
theorem posts_receive_of_computes (h : u.computes = true) (here : Surroundings) :
    (u.receive inlet message here).Posts sent scheduled := by
  cases u with
  | streamOperator v =>
    refine .map _ ?_
    unfold StreamOperator.receive
    split
    · exact .map _ (posts_heed message v.op v.right)
    · exact ⟨⟩
  | messageOperator | port | table | floatBox | metro | delay | print | messageSender
  | messageReceiver => cases h
  | _ => exact ⟨⟩

/-- Only a message at the right inlet changes what a `delay` is set to. -/
theorem ends_receive (here : Surroundings) (hinlet : inlet ≠ 1) :
    (u.receive inlet message here).Ends fun u' => u'.delay? = u.delay? := by
  cases u with
  | delay v =>
    refine .map ?_
    unfold Delay.receive
    split
    · refine (ends_stop_delay v).bind fun v' hv => ?_
      have hsome : some v'.delay = some v.delay := congrArg some hv
      split
      · exact hsome
      · exact fun _ => hsome
    · exact (hinlet rfl).elim
    · exact rfl
  | hostInput | hostOutput | linkWriter | linkReader | table | tableReader | delayWriter | constant
  | ramp | oscillator | tableWriter | delayReader => exact rfl
  | _ => exact .map (.of_forall (fun _ => rfl) _)

/-- A `delay` goes on with the time that it is set to, unless it receives a number at its right inlet. -/
theorem ends_receive_set (here : Surroundings) : (u.receive inlet message here).Ends fun u' =>
    u'.delay? = u.delay? ∨
      inlet = 1 ∧ ∃ value, message.floatAt 0 = some value ∧ u'.delay? = some (widen value) := by
  by_cases hinlet : inlet = 1
  · subst hinlet
    cases u with
    | delay v =>
      refine .map ?_
      unfold Delay.receive
      split
      · exact absurd ‹1 = 0› (by decide)
      · split
        · next value hvalue =>
          exact .map (.of_forall (fun _ => .inr ⟨rfl, value, hvalue, rfl⟩) _)
        · exact .inl rfl
      · exact .inl rfl
    | hostInput | hostOutput | linkWriter | linkReader | table | tableReader | delayWriter | constant
    | ramp | oscillator | tableWriter | delayReader => exact .inl rfl
    | _ => exact .map (.of_forall (fun _ => .inl rfl) _)
  · exact (u.ends_receive inlet message here hinlet).mono fun _ h => .inl h

end Receive

/-- What is due goes out at its time, and if anything is scheduled then for a millisecond later or
more. -/
theorem posts_emit (u : CatalogueUnit) (outlet : Nat) (message : Message) :
    (u.emit outlet message).Posts (u.Sends message.timestamp)
      fun m => ∃ wait, m.timestamp = message.timestamp + wait ∧ 1 ≤ wait := by
  cases u with
  | metro v =>
    exact .map _ ⟨⟨_, rfl, one_le_maxDouble _⟩, fun _ => ⟨⟨rfl, fun _ h => by cases h⟩, ⟨⟩⟩⟩
  | delay v => exact .map _ ⟨sends_outlet _ message, ⟨⟩⟩
  | _ => exact ⟨sends_outlet _ message, ⟨⟩⟩

theorem ends_emit (u : CatalogueUnit) (outlet : Nat) (message : Message) :
    (u.emit outlet message).Ends fun u' => u'.delay? = u.delay? := by
  cases u with
  | metro v => exact .map (.of_forall (fun _ => rfl) _)
  | _ => exact rfl

end Patchbay.CatalogueUnit

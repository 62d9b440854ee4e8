import FlashRing.Store.Request

/-!
Operations on arrays are put together of operations on single payloads. Main statements: a relation
between the operations of two stores that passes from parts to what is made of them holds of every
request, once it holds of the operations on single payloads, and so does a property of the
operations of one store.
-/

namespace FlashRing.Store

/-- A relation between operations on two devices that the operations on single payloads have, and
that passes from parts to what is made of them. -/
structure Paired {δ ε : Type} [Device δ] [Device ε]
    (P : ∀ {α : Type}, StoreM δ α → StoreM ε α → Prop) : Prop where
  pure : ∀ {α : Type} (a : α), P (pure a) (pure a)
  /-- Only a device makes an operation fail on account of the device. -/
  throw : ∀ {α : Type} {e : Error}, e.isDeviceFailure = false →
    P (throw e : StoreM δ α) (throw e)
  bind : ∀ {α β : Type} {x : StoreM δ α} {y : StoreM ε α} {f : α → StoreM δ β}
    {g : α → StoreM ε β}, P x y → (∀ a, P (f a) (g a)) → P (x >>= f) (y >>= g)
  readyRoles : P readyRoles readyRoles
  read : ∀ key, P (read key) (read key)
  write : ∀ key payload, P (write key payload) (write key payload)
  delete : ∀ key, P (delete key) (delete key)

namespace Paired

variable {δ ε : Type} [Device δ] [Device ε]
  {P : ∀ {α : Type}, StoreM δ α → StoreM ε α → Prop}

theorem ite (_ : Paired P) {α : Type} {c : Prop} [Decidable c] {x x' : StoreM δ α}
    {y y' : StoreM ε α} (hx : P x y) (hx' : P x' y') :
    P (if c then x else x') (if c then y else y') := by
  split
  · exact hx
  · exact hx'

variable (h : Paired P)

include h

theorem forM {α : Type} {f : α → StoreM δ PUnit} {g : α → StoreM ε PUnit}
    (hf : ∀ a, P (f a) (g a)) (list : List α) : P (list.forM f) (list.forM g) := by
  induction list with
  | nil => exact h.pure ()
  | cons a rest ih => exact h.bind (hf a) fun _ => ih

theorem checkKey (key : UInt16) : P (checkKey key) (checkKey key) :=
  h.ite (h.pure ()) (h.throw rfl)

theorem checkRange (key : UInt16) (length : Nat) :
    P (checkRange key length) (checkRange key length) :=
  h.bind (h.checkKey key) fun _ => h.ite (h.throw rfl) (h.pure ())

theorem complete (bytes : List UInt8) (expected : Nat) :
    P (complete bytes expected) (complete bytes expected) :=
  h.ite (h.throw rfl) (h.pure _)

theorem reserve (count : Nat) : P (reserve count) (reserve count) :=
  h.ite (h.pure ()) (h.throw rfl)

theorem readRun (base : UInt16) (offset count : Nat) :
    P (readRun base offset count) (readRun base offset count) := by
  induction count generalizing offset with
  | zero => exact h.pure []
  | succ count ih =>
    rw [Store.readRun, Store.readRun]
    cases offsetKey base offset with
    | none => exact h.pure []
    | some key =>
      refine h.bind (h.read key) fun payload => ?_
      cases payload with
      | none => exact h.pure []
      | some payload => exact h.bind (ih (offset + 1)) fun _ => h.pure _

theorem writeRun (base : UInt16) (offset : Nat) (payloads : List UInt16) :
    P (writeRun base offset payloads) (writeRun base offset payloads) := by
  induction payloads generalizing offset with
  | nil => exact h.pure ()
  | cons payload rest ih =>
    exact h.bind (h.forM (fun key => h.write key payload) _) fun _ => ih (offset + 1)

theorem deleteRun (base : UInt16) (offset count : Nat) :
    P (deleteRun base offset count) (deleteRun base offset count) := by
  induction count generalizing offset with
  | zero => exact h.pure false
  | succ count ih =>
    rw [Store.deleteRun, Store.deleteRun]
    cases offsetKey base offset with
    | none => exact h.pure false
    | some key => exact h.bind (h.delete key) fun _ => h.bind (ih (offset + 1)) fun _ => h.pure _

theorem readArray (key : UInt16) : P (readArray key) (readArray key) := by
  refine h.bind (h.read key) fun head => ?_
  cases head with
  | none => exact h.pure none
  | some head =>
    dsimp only
    cases arrayLength head with
    | zero => exact h.pure (some [])
    | succ rest =>
      exact h.bind (h.readRun key 1 rest) fun _ => h.bind (h.complete _ _) fun _ => h.pure _

theorem readArrayOfLength (key : UInt16) (count : Nat) :
    P (readArrayOfLength key count) (readArrayOfLength key count) := by
  refine h.bind h.readyRoles fun _ => h.bind (h.checkKey key) fun _ =>
    h.bind (h.reserve count) fun _ => h.bind (h.readRun key 0 count) fun bytes => ?_
  exact h.ite (h.pure none) (h.bind (h.complete _ _) fun _ => h.pure _)

theorem writeArray (key : UInt16) (bytes : List UInt8) :
    P (writeArray key bytes) (writeArray key bytes) := by
  have hwrite := h.writeRun key 0 (prefixedPayloads bytes)
  refine h.ite (h.bind (h.throw rfl) fun _ => ?_) ?_
  all_goals
    refine h.bind (h.checkRange key bytes.length) fun _ => h.bind (h.read key) fun head => ?_
    cases head with
    | none => exact hwrite
    | some head => exact h.ite (h.bind (h.deleteRun key 0 _) fun _ => hwrite) hwrite

theorem writeArrayOfLength (key : UInt16) (bytes : List UInt8) :
    P (writeArrayOfLength key bytes) (writeArrayOfLength key bytes) := by
  refine h.bind h.readyRoles fun _ => h.bind (h.checkKey key) fun _ => h.ite (h.pure ()) ?_
  exact h.bind (h.checkRange key bytes.length) fun _ => h.writeRun key 0 _

theorem deleteArray (key : UInt16) : P (deleteArray key) (deleteArray key) := by
  refine h.bind (h.read key) fun head => ?_
  cases head with
  | none => exact h.pure false
  | some head => exact h.deleteRun key 0 _

/-- What relates the operations of their own relates the two sides of every request. -/
theorem request {request : Request} (hinit : request = .init → P init init)
    (hcompact : P compact compact) (hcounter : P eraseCounter eraseCounter)
    (hentries : P entries entries) (hinspect : P inspect inspect)
    (hformat : request = .format → P format format) : P request.run request.run := by
  cases request with
  | init => exact h.bind (hinit rfl) fun _ => h.pure _
  | format => exact h.bind (hformat rfl) fun _ => h.pure _
  | compact => exact h.bind hcompact fun _ => h.pure _
  | read key => exact h.bind (h.read key) fun _ => h.pure _
  | write key payload => exact h.bind (h.write key payload) fun _ => h.pure _
  | delete key => exact h.bind (h.delete key) fun _ => h.pure _
  | readArray key => exact h.bind (h.readArray key) fun _ => h.pure _
  | readArrayOfLength key count => exact h.bind (h.readArrayOfLength key count) fun _ => h.pure _
  | writeArray key bytes => exact h.bind (h.writeArray key bytes) fun _ => h.pure _
  | writeArrayOfLength key bytes => exact h.bind (h.writeArrayOfLength key bytes) fun _ => h.pure _
  | deleteArray key => exact h.bind (h.deleteArray key) fun _ => h.pure _
  | eraseCounter => exact h.bind hcounter fun _ => h.pure _
  | entries => exact h.bind hentries fun _ => h.pure _
  | inspect => exact h.bind hinspect fun _ => h.pure _
  | add key amount =>
    exact h.bind (h.read key) fun _ => h.bind (h.write key _) fun _ => h.pure _

end Paired

variable {δ : Type} [Device δ]

/-- A property that the operations on single payloads have, and that passes from parts to what is
made of them. -/
structure Composable (P : ∀ {α : Type}, StoreM δ α → Prop) : Prop where
  pure : ∀ {α : Type} (a : α), P (pure a : StoreM δ α)
  /-- Only a device makes an operation fail on account of the device. -/
  throw : ∀ {α : Type} {e : Error}, e.isDeviceFailure = false → P (throw e : StoreM δ α)
  bind : ∀ {α β : Type} {x : StoreM δ α} {f : α → StoreM δ β},
    P x → (∀ a, P (f a)) → P (x >>= f)
  readyRoles : P (readyRoles : StoreM δ Roles)
  read : ∀ key, P (read key : StoreM δ (Option UInt16))
  write : ∀ key payload, P (write key payload : StoreM δ Unit)
  delete : ∀ key, P (delete key : StoreM δ Bool)

namespace Composable

variable {P : ∀ {α : Type}, StoreM δ α → Prop}

/-- A property is a relation of operations with themselves. -/
theorem paired (h : Composable P) :
    Paired fun {α : Type} (x y : StoreM δ α) => x = y ∧ P x where
  pure a := ⟨rfl, h.pure a⟩
  throw he := ⟨rfl, h.throw he⟩
  bind := by
    rintro α β x y f g ⟨rfl, hx⟩ hf
    obtain rfl : f = g := funext fun a => (hf a).1
    exact ⟨rfl, h.bind hx fun a => (hf a).2⟩
  readyRoles := ⟨rfl, h.readyRoles⟩
  read key := ⟨rfl, h.read key⟩
  write key payload := ⟨rfl, h.write key payload⟩
  delete key := ⟨rfl, h.delete key⟩

/-- What is true of the operations of their own is true of every request. -/
theorem request (h : Composable P) {request : Request}
    (hinit : request = .init → P (init : StoreM δ Unit))
    (hcompact : P (compact : StoreM δ Unit)) (hcounter : P (eraseCounter : StoreM δ Nat))
    (hentries : P (entries : StoreM δ (List (UInt16 × UInt16))))
    (hinspect : P (inspect : StoreM δ (List PageReport)))
    (hformat : request = .format → P (format : StoreM δ Unit)) :
    P (request.run : StoreM δ Reply) :=
  (h.paired.request (fun he => ⟨rfl, hinit he⟩) ⟨rfl, hcompact⟩ ⟨rfl, hcounter⟩ ⟨rfl, hentries⟩
    ⟨rfl, hinspect⟩ fun he => ⟨rfl, hformat he⟩).2

end Composable

end FlashRing.Store

import Mathlib

/-!
# Weakest preconditions of programs that may fail

A program over a mutable state either returns or fails, and in both cases it
leaves a state.  `Wp x Q F s` says of a program started in `s` that `Q` holds
of what it returns and `F` of how it fails.  The rules below take a program
apart at its sequencing; a loop over a list needs an invariant indexed by what
has been done.
-/

namespace SilFormal

variable {S S' E E' α β : Type} {r : EStateM.Result E S α} {part : S → S'} {put : S' → S → S}
  {fail : E' → E}

/-- What holds of every outcome of a program started in a state. -/
def Wp (x : EStateM E S α) (Q : α → S → Prop) (F : E → S → Prop) (s : S) : Prop :=
  match x s with
  | .ok a s' => Q a s'
  | .error e s' => F e s'

namespace Wp

variable {Q Q' : α → S → Prop} {R : β → S → Prop} {F F' : E → S → Prop} {s : S}
  {f : α → EStateM E S β}

theorem mono {x : EStateM E S α} (h : Wp x Q F s) (hQ : ∀ a s', Q a s' → Q' a s')
    (hF : ∀ e s', F e s' → F' e s') : Wp x Q' F' s := by
  simp only [Wp] at h ⊢
  split
  · rename_i hx
    rw [hx] at h
    exact hQ _ _ h
  · rename_i hx
    rw [hx] at h
    exact hF _ _ h

theorem post {x : EStateM E S α} (h : Wp x Q F s) (hQ : ∀ a s', Q a s' → Q' a s') : Wp x Q' F s :=
  h.mono hQ fun _ _ he => he

theorem of_ok {x : EStateM E S α} (h : Wp x Q F s) {a : α} {s' : S} (hx : x s = .ok a s') :
    Q a s' := by
  simp only [Wp, hx] at h
  exact h

theorem of_error {x : EStateM E S α} (h : Wp x Q F s) {e : E} {s' : S} (hx : x s = .error e s') :
    F e s' := by
  simp only [Wp, hx] at h
  exact h

/-- A program has an outcome, so its postconditions may be met by cases. -/
theorem intro {x : EStateM E S α} (hok : ∀ a s', x s = .ok a s' → Q a s')
    (herror : ∀ e s', x s = .error e s' → F e s') : Wp x Q F s := by
  simp only [Wp]
  split
  · rename_i hx
    exact hok _ _ hx
  · rename_i hx
    exact herror _ _ hx

@[simp]
theorem pure_iff {a : α} : Wp (pure a) Q F s ↔ Q a s :=
  Iff.rfl

@[simp]
theorem bind_iff {x : EStateM E S α} :
    Wp (x >>= f) R F s ↔ Wp x (fun a s' => Wp (f a) R F s') F s := by
  simp only [Wp, bind, EStateM.bind]
  cases x s with
  | ok a s' => exact Iff.rfl
  | error e s' => exact Iff.rfl

theorem bind {x : EStateM E S α} (hx : Wp x Q F s) (hf : ∀ a s', Q a s' → Wp (f a) R F s') :
    Wp (x >>= f) R F s :=
  bind_iff.mpr (hx.post hf)

@[simp]
theorem map_iff {x : EStateM E S α} {f : α → β} :
    Wp (f <$> x) R F s ↔ Wp x (fun a s' => R (f a) s') F s := by
  rw [map_eq_pure_bind, bind_iff]
  exact Iff.rfl

@[simp]
theorem get_iff {Q : S → S → Prop} : Wp (get : EStateM E S S) Q F s ↔ Q s s :=
  Iff.rfl

@[simp]
theorem modify_iff {f : S → S} {Q : PUnit → S → Prop} :
    Wp (modify f : EStateM E S PUnit) Q F s ↔ Q ⟨⟩ (f s) :=
  Iff.rfl

@[simp]
theorem throw_iff {e : E} : Wp (throw e : EStateM E S α) Q F s ↔ F e s :=
  Iff.rfl

@[simp]
theorem ite_iff {p : Prop} [Decidable p] {x y : EStateM E S α} :
    Wp (if p then x else y) Q F s ↔ (p → Wp x Q F s) ∧ (¬ p → Wp y Q F s) := by
  by_cases hp : p
  · simp [hp]
  · simp [hp]

/-- A loop keeps what each of its rounds keeps. -/
theorem for_each {ι : Type} {f : ι → EStateM E S PUnit} {I : List ι → S → Prop} {l : List ι}
    (hstep : ∀ done i rest s, l = done ++ i :: rest → I done s →
      Wp (f i) (fun _ s' => I (done ++ [i]) s') F s) (hs : I [] s) :
    Wp (forM l f) (fun _ s' => I l s') F s := by
  -- Along the part that is left, with the part that is done in the invariant.
  have hrest : ∀ rest done s, l = done ++ rest → I done s →
      Wp (forM rest f) (fun _ s' => I l s') F s := by
    intro rest
    induction rest with
    | nil =>
      intro done s hl hdone
      rw [List.append_nil] at hl
      rw [List.forM_nil, hl]
      exact hdone
    | cons i rest ih =>
      intro done s hl hdone
      refine bind (hstep done i rest s hl hdone) ?_
      intro _ s' hs'
      exact ih (done ++ [i]) s' (by simpa using hl) hs'
  exact hrest l [] s rfl hs

end Wp

/-- A sequence goes on from the outcome of its first program. -/
theorem bind_of_ok {x : EStateM E S α} {s s₁ : S} {a : α} (h : x s = .ok a s₁)
    (f : α → EStateM E S β) : (x >>= f) s = f a s₁ := by
  show EStateM.bind x f s = _
  rw [EStateM.bind, h]

theorem bind_of_error {x : EStateM E S α} {s s₁ : S} {e : E} (h : x s = .error e s₁)
    (f : α → EStateM E S β) : (x >>= f) s = .error e s₁ := by
  show EStateM.bind x f s = _
  rw [EStateM.bind, h]

theorem bind_eq_ok_iff {x : EStateM E S α} {f : α → EStateM E S β} {s s' : S} {b : β} :
    (x >>= f) s = .ok b s' ↔ ∃ a s₁, x s = .ok a s₁ ∧ f a s₁ = .ok b s' := by
  cases h : x s with
  | ok a s₁ =>
    rw [bind_of_ok h]
    constructor
    · exact fun hf => ⟨a, s₁, rfl, hf⟩
    · rintro ⟨_, _, ⟨⟩, hf⟩
      exact hf
  | error e s₁ =>
    rw [bind_of_error h]
    constructor
    · rintro ⟨⟩
    · rintro ⟨_, _, ⟨⟩, _⟩

theorem forM_congr {ι : Type} {l : List ι} {f f' : ι → EStateM E S PUnit}
    (h : ∀ i ∈ l, f i = f' i) : forM l f = forM l f' := by
  induction l with
  | nil => rfl
  | cons i l ih =>
    obtain ⟨hi, hl⟩ := List.forall_mem_cons.mp h
    rw [List.forM_cons, List.forM_cons, hi, ih hl]

/-- Whether an outcome is a return. -/
def returns : EStateM.Result E S α → Bool
  | .ok _ _ => true
  | .error _ _ => false

theorem exists_of_returns (h : returns r = true) : ∃ a s', r = .ok a s' := by
  cases r with
  | ok a s' => exact ⟨a, s', rfl⟩
  | error e s' => cases h

/-- Whether an outcome is a failure of a kind. -/
def fails (kind : E → Bool) : EStateM.Result E S α → Bool
  | .ok _ _ => false
  | .error e _ => kind e

theorem exists_of_fails {kind : E → Bool} (h : fails kind r = true) :
    ∃ e s', r = .error e s' ∧ kind e = true := by
  cases r with
  | ok a s' => cases h
  | error e s' => exact ⟨e, s', rfl, h⟩

/-- A program on a part of the state, with its failures as failures of the
whole. -/
def zoom (part : S → S') (put : S' → S → S) (fail : E' → E) (x : EStateM E' S' α) :
    EStateM E S α := fun s =>
  match x (part s) with
  | .ok a s' => .ok a (put s' s)
  | .error e s' => .error (fail e) (put s' s)

@[simp]
theorem Wp.zoom_iff {x : EStateM E' S' α} {Q : α → S → Prop} {F : E → S → Prop} {s : S} :
    Wp (zoom part put fail x) Q F s ↔
      Wp x (fun a s' => Q a (put s' s)) (fun e s' => F (fail e) (put s' s)) (part s) := by
  simp only [Wp, zoom]
  cases x (part s) with
  | ok a s' => exact Iff.rfl
  | error e s' => exact Iff.rfl

theorem zoom_of_ok {x : EStateM E' S' α} {s : S} {s' : S'} {a : α} (h : x (part s) = .ok a s') :
    zoom part put fail x s = .ok a (put s' s) := by
  rw [zoom, h]

theorem zoom_of_error {x : EStateM E' S' α} {s : S} {s' : S'} {e : E'}
    (h : x (part s) = .error e s') : zoom part put fail x s = .error (fail e) (put s' s) := by
  rw [zoom, h]

theorem zoom_eq_ok_iff {x : EStateM E' S' α} {s s' : S} {a : α} :
    zoom part put fail x s = .ok a s' ↔ ∃ s₁, x (part s) = .ok a s₁ ∧ s' = put s₁ s := by
  rw [zoom]
  cases x (part s) with
  | ok b s₁ => simp [eq_comm]
  | error e s₁ => simp

/-! ## Assertions of the state alone -/

/-- A program started where `P` holds ends where `Q` holds, or fails where `F`
does. -/
def Keeps (F P Q : S → Prop) (x : EStateM E S α) : Prop :=
  ∀ s, P s → Wp x (fun _ s' => Q s') (fun _ s' => F s') s

namespace Keeps

variable {F P P' Q Q' R : S → Prop} {x : EStateM E S α}

theorem mono (h : Keeps F P Q x) (hP : ∀ s, P' s → P s) (hQ : ∀ s, Q s → Q' s) :
    Keeps F P' Q' x := fun s hs =>
  (h s (hP s hs)).post fun _ s' => hQ s'

theorem bind {f : α → EStateM E S β} (hx : Keeps F P Q x) (hf : ∀ a, Keeps F Q R (f a)) :
    Keeps F P R (x >>= f) := fun s hs =>
  Wp.bind (hx s hs) fun a s' hs' => hf a s' hs'

theorem map {f : α → β} (hx : Keeps F P Q x) : Keeps F P Q (f <$> x) := fun s hs =>
  Wp.map_iff.2 (hx s hs)

theorem pure (a : α) : Keeps F P P (pure a : EStateM E S α) := fun _ hs => hs

theorem throw (hF : ∀ s, P s → F s) (e : E) : Keeps F P Q (throw e : EStateM E S α) := hF

theorem modify {f : S → S} (h : ∀ s, P s → Q (f s)) :
    Keeps F P Q (modify f : EStateM E S PUnit) := h

theorem modify_bind {f : S → S} {y : PUnit → EStateM E S α} (h : ∀ s, P s → P (f s))
    (hy : Keeps F P Q (y ⟨⟩)) :
    Keeps F P Q ((modifyThe S f : EStateM E S PUnit) >>= y) := fun s hs =>
  Wp.bind_iff.2 (hy (f s) (h s hs))

theorem get_bind {f : S → EStateM E S α} (h : ∀ s, Keeps F P Q (f s)) :
    Keeps F P Q (get >>= f) := fun s hs => Wp.bind_iff.2 (h s s hs)

theorem ite {p : Prop} [Decidable p] {y : EStateM E S α} (hx : Keeps F P Q x) (hy : Keeps F P Q y) :
    Keeps F P Q (if p then x else y) := by
  split
  · exact hx
  · exact hy

theorem forM {ι : Type} {f : ι → EStateM E S PUnit} {l : List ι} (h : ∀ i ∈ l, Keeps F P P (f i)) :
    Keeps F P P (forM l f) := by
  intro s hs
  refine Wp.for_each (I := fun _ => P) (fun done i rest s' hl hs' => ?_) hs
  exact h i (by simp [hl]) s' hs'

end Keeps

end SilFormal

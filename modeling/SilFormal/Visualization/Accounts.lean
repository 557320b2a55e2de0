import SilFormal.Visualization.Playback

/-!
# The account of a Channel

The history of a session tells what a Channel was sent since its last
reconstruction: the Backfill of the reconstruction, and the Messages that
playback crossed after it.  A refused Message counts in its place.
-/

namespace SilFormal.Visualization

open Timeline

/-- A reconstruction of a Channel, and what the Channel was sent since. -/
structure Reconstruction (C : Type) where
  position : Position
  fresh : Bool
  backfill : Option (SourceMessage C)
  delivered : List (SourceMessage C)
deriving DecidableEq

variable {C : Type} [DecidableEq C]

/-- The Backfill of a reconstruction. -/
def Reconstruction.withBackfill (m : SourceMessage C) (r : Reconstruction C) : Reconstruction C :=
  { r with backfill := some m }

/-- Playback crossed Messages. -/
def Reconstruction.withDelivered (l : List (SourceMessage C)) (r : Reconstruction C) :
    Reconstruction C :=
  { r with delivered := r.delivered ++ l }

/-- The account of a Channel after one more notification. -/
def Notification.update (c : C) (r : Option (Reconstruction C)) :
    Notification C → Option (Reconstruction C)
  | .backfill _ m | .refused _ m true _ => if m.channel = c then r.map (·.withBackfill m) else r
  | .message _ m | .refused _ m false _ => if m.channel = c then r.map (·.withDelivered [m]) else r
  | _ => r

/-- The account of a Channel after one more entry of the history. -/
def Entry.update (c : C) (r : Option (Reconstruction C)) : Entry C → Option (Reconstruction C)
  | .enqueued n => n.update c r
  | .reconstructed d position fresh => if d = c then some ⟨position, fresh, none, []⟩ else r

/-- The account of a Channel: its last reconstruction, if it has one. -/
def account (c : C) (history : List (Entry C)) : Option (Reconstruction C) :=
  history.foldl (Entry.update c) none

theorem account_append (c : C) (history entries : List (Entry C)) :
    account c (history ++ entries) = entries.foldl (Entry.update c) (account c history) :=
  List.foldl_append

/-- Reconstructions without a Backfill. -/
theorem account_note (c : C) (history : List (Entry C)) (channels : List C) (position : Position)
    (fresh : Bool) :
    account c (history ++ channels.map fun d => .reconstructed d position fresh) =
      if c ∈ channels then some ⟨position, fresh, none, []⟩ else account c history := by
  rw [account_append]
  generalize account c history = r
  induction channels generalizing r with
  | nil => rfl
  | cons d channels ih =>
    rw [List.map_cons, List.foldl_cons, ih, Entry.update]
    by_cases hmem : c ∈ channels
    · simp [hmem]
    · by_cases hd : d = c
      · simp [hd]
      · simp [hd, Ne.symm hd]

/-- The Messages of a page count for their Channel. -/
theorem account_deliver (c : C) (history : List (Entry C)) (generation : Nat)
    (items : List (Item C)) :
    account c (history ++ items.map fun i => .enqueued (.message generation i.message)) =
      (account c history).map
        (·.withDelivered ((items.map Item.message).filter fun m => m.channel = c)) := by
  rw [account_append]
  generalize account c history = r
  induction items generalizing r with
  | nil => cases r <;> simp [Reconstruction.withDelivered]
  | cons i items ih =>
    rw [List.map_cons, List.foldl_cons, ih, Entry.update, Notification.update, List.map_cons]
    by_cases hi : i.message.channel = c
    · cases r <;> simp [hi, Reconstruction.withDelivered]
    · simp [hi]

namespace Playback

variable (p : Playback C) {history history' : List (Entry C)}

/-- A reconstruction that is right for a Channel up to a position: its Backfill
is the latest Message at or before it, and the Channel was sent the Messages
after it and up to the position, in order.  That of a fresh session is before
the first instant. -/
structure Exact (c : C) (after : Position) (r : Reconstruction C) : Prop where
  position_le : r.position ≤ after
  backfill : r.backfill = latest SourceMessage.key (p.source.messagesOf c) r.position
  delivered : r.delivered = between SourceMessage.key (p.source.messagesOf c) r.position after
  fresh : r.fresh = true → r.position = p.first

/-- The account of a Channel is right up to a position. -/
def Accounted (history : List (Entry C)) (after : Position) (c : C) : Prop :=
  ∃ r, account c history = some r ∧ p.Exact c after r

variable {p}

/-- A reconstruction is right at its own position. -/
theorem exact_reconstructed {c : C} {after : Position} {fresh : Bool}
    {backfill : Option (SourceMessage C)}
    (hbackfill : backfill = latest SourceMessage.key (p.source.messagesOf c) after)
    (hfresh : fresh = true → after = p.first) : p.Exact c after ⟨after, fresh, backfill, []⟩ :=
  ⟨le_rfl, hbackfill, (between_self _ _).symm, hfresh⟩

/-- What playback crosses extends the account. -/
theorem Accounted.extend {a b : Position} {c : C} (h : p.Accounted history a c) (hab : a ≤ b)
    {l : List (SourceMessage C)} (hl : l = between SourceMessage.key (p.source.messagesOf c) a b)
    (haccount : account c history' = (account c history).map (·.withDelivered l)) :
    p.Accounted history' b c := by
  obtain ⟨r, hr, hexact⟩ := h
  refine ⟨r.withDelivered l, by rw [haccount, hr]; rfl, ?_⟩
  refine ⟨hexact.position_le.trans hab, hexact.backfill, ?_, hexact.fresh⟩
  rw [Reconstruction.withDelivered, hexact.delivered, hl]
  exact (p.source.sorted_messagesOf c).between_append hexact.position_le hab

theorem Accounted.of_account {a : Position} {c : C} (h : p.Accounted history a c)
    (e : account c history' = account c history) : p.Accounted history' a c := by
  rw [Accounted, e]
  exact h

/-- The notification of a reconstructed item counts as the Backfill. -/
theorem update_backfill {s : State C} {item : Item C} {generation : Nat} {n : Notification C}
    (h : p.backfill s item generation = some n) (c : C) (r : Option (Reconstruction C)) :
    n.update c r = if item.channel = c then r.map (·.withBackfill item.message) else r := by
  rw [backfill] at h
  cases hrefusal : item.refusal with
  | some reason =>
    simp only [hrefusal] at h
    split_ifs at h
    cases h
    rfl
  | none =>
    simp only [hrefusal] at h
    split_ifs at h
    · cases h
      rfl
    · cases h
      rfl

end Playback

end SilFormal.Visualization

import Mathlib

/-!
# Ideal message authentication

The tags of messages under one key, in several forms (a whole tag, a shortened one).  No two messages have a common tag,
whatever the forms, and a party that was not given the key presents only tags of messages that were signed.
-/

/-- The tags of messages `μ` under one key, in the forms `φ`. -/
structure IdealMac (φ μ τ : Type) where
  tag : φ → μ → τ
  injective : ∀ {f f' : φ} {m m' : μ}, tag f m = tag f' m' → f = f' ∧ m = m'

namespace IdealMac

variable {φ μ τ : Type} {mac : IdealMac φ μ τ} {issued issued' : List μ} {texts : List τ} {f : φ} {m : μ} {t : τ}

/-- Every tag among `texts` is of a message that was signed. -/
def Unforged (mac : IdealMac φ μ τ) (signed : List μ) (texts : List τ) : Prop :=
  ∀ f m, mac.tag f m ∈ texts → m ∈ signed

theorem Unforged.of_mem (h : Unforged mac issued texts) (ht : t ∈ texts) (htag : t = mac.tag f m) : m ∈ issued :=
  h f m (htag ▸ ht)

end IdealMac

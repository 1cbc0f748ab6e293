/- Foundation: locks held to the end
   digest: Keys a transaction takes one by one and lets go all at once, when it is over. -/
import Mathlib.Logic.Function.Basic

set_option autoImplicit false
set_option relaxedAutoImplicit false

namespace Setfork.Foundation

abbrev Held (ι K : Type) := K → Option ι

namespace Held

variable {ι K : Type} [DecidableEq ι] [DecidableEq K]

def Open (a : ι) (k : K) (held : Held ι K) : Prop := held k = none ∨ held k = some a

instance (a : ι) (k : K) (held : Held ι K) : Decidable (Open a k held) :=
  inferInstanceAs (Decidable (_ ∨ _))

def take (a : ι) (k : K) (held : Held ι K) : Held ι K := Function.update held k (some a)

def release (a : ι) (held : Held ι K) : Held ι K :=
  fun k => if held k = some a then none else held k

omit [DecidableEq ι] in
@[simp] theorem take_self (a : ι) (k : K) (held : Held ι K) : take a k held k = some a :=
  Function.update_self ..

omit [DecidableEq ι] in
theorem take_keeps {a b : ι} {k l : K} {held : Held ι K} (hopen : Open a k held) (hb : b ≠ a)
    (h : held l = some b) : take a k held l = some b := by
  have hne : l ≠ k := by
    rintro rfl
    rcases hopen with hnone | hself
    · rw [hnone] at h
      cases h
    · rw [hself] at h
      exact hb (Option.some.inj h).symm
  rw [take, Function.update_of_ne hne]
  exact h

omit [DecidableEq K] in
theorem release_keeps {a b : ι} {l : K} {held : Held ι K} (hb : b ≠ a) (h : held l = some b) :
    release a held l = some b := by
  rw [release, if_neg, h]
  rw [h]
  exact fun heq => hb (Option.some.inj heq)

end Held

end Setfork.Foundation

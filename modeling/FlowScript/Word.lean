/-!
# Words

Integers of the language are signed 64-bit words, and counts are unsigned ones.
Arithmetic is done on numbers without bounds; what fits in a word becomes one
again, and what does not is left to the caller to report.
-/

set_option autoImplicit false

namespace FlowScript

def maxWord : Nat := UInt64.size - 1

def maxSigned : Nat := 0x7fffffffffffffff

/-- The unsigned word with the given value, when the value fits. -/
def wordOfNat? (value : Nat) : Option UInt64 :=
  if value ≤ maxWord then some (UInt64.ofNat value) else none

/-- The signed word with the given value, when the value fits. -/
def signedOfInt? (value : Int) : Option Int64 :=
  if -(maxSigned : Int) - 1 ≤ value ∧ value ≤ maxSigned then some (Int64.ofInt value) else none

/-- The signed word nearest to the given value. -/
def signedNearest (value : Int) : Int64 :=
  Int64.ofInt (max (-(maxSigned : Int) - 1) (min value maxSigned))

/-- A word that comes from a value has that value. -/
theorem toNat_of_wordOfNat? {value : Nat} {word : UInt64} (found : wordOfNat? value = some word) :
    word.toNat = value := by
  unfold wordOfNat? at found
  split at found
  · next fits =>
      cases found
      apply UInt64.toNat_ofNat_of_lt
      simp [maxWord, UInt64.size] at fits ⊢
      omega
  · cases found

/-- A signed word that comes from a value has that value. -/
theorem toInt_of_signedOfInt? {value : Int} {word : Int64}
    (found : signedOfInt? value = some word) : word.toInt = value := by
  unfold signedOfInt? at found
  split at found
  · next fits =>
      cases found
      simp [maxSigned] at fits
      apply Int64.toInt_ofInt_of_le <;> simp <;> omega
  · cases found

end FlowScript

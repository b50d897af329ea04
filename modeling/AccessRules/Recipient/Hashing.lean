import AccessRules.Recipient.Basic

/-!
# Hashing recipients

A recipient gives a hasher the rank of its kind and its value.
-/

namespace AccessRules

structure Hasher (σ : Type) where
  takeNumber : σ -> Nat -> σ
  takeText : σ -> String -> σ

def Hasher.mixing : Hasher UInt64 :=
  ⟨fun state number => mixHash state (hash number), fun state text => mixHash state (hash text)⟩

namespace Recipient

def feed (hasher : Hasher σ) (state : σ) (recipient : Recipient) : σ :=
  hasher.takeText (hasher.takeNumber state recipient.kind.rank) recipient.value

instance : Hashable Recipient where
  hash recipient := recipient.feed Hasher.mixing 7

end Recipient
end AccessRules

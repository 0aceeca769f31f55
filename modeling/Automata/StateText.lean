import Automata.State
import Automata.Text.Escape

/-! How states are shown. A drawing or a listing shows the plain name of a state; a message, where
the reader must see where the state ends, shows its quoted form. Numbers look the same in both. -/
namespace Automata

/-- States that can be shown: plainly as a name, and quoted where text around them must end. -/
class StateText (S : Type) where
  name : S → List Char
  quoted : S → List Char

/-- The digits of a number, with a sign if it is negative. -/
def signedDigits : Int → List Char
  | .ofNat n => Nat.toDigits 10 n
  | .negSucc n => '-' :: Nat.toDigits 10 (n + 1)

instance : StateText Int where
  name := signedDigits
  quoted := signedDigits

instance : StateText Nat where
  name := Nat.toDigits 10
  quoted := Nat.toDigits 10

instance : StateText String where
  name := String.toList
  quoted := Text.quoteString

instance : StateText State where
  name q := 'q' :: Nat.toDigits 10 q.id.toNat
  quoted q := "State(".toList ++ (Nat.toDigits 10 q.id.toNat ++ [')'])

end Automata

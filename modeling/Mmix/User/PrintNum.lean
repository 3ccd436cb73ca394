import Mmix.Klib.Printf

/-!
# Numbers in decimal

The system prints a `long` in three places: `print_num` of the user library calls
itself for the leading digits, `vsnprintf_mini` and `emit` fill an array with the
lowest digit first. All of them negate a negative number before they divide.
-/

namespace Mmix.User

open Fs Klib

end Mmix.User

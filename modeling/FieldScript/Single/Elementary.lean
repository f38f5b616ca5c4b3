/-
# Elementary functions on singles

The trigonometric and hyperbolic functions, computed in double precision and
rounded once to the nearest single.  A NaN is passed on, made quiet; outside a
function's domain the result is `undefined`.
-/

import FieldScript.Single.Arithmetic

namespace FieldScript
namespace Single

/-- The same number in double precision. -/
def toDouble (x : Single) : Float := (Float32.ofBits x.bits).toFloat

/-- The single nearest to a double; every NaN becomes `undefined`. -/
def ofDouble (d : Float) : Single :=
  if d.isNaN then undefined else ⟨d.toFloat32.toBits⟩

/-- A function on doubles as a function on singles. -/
def elementary (f : Float → Float) (x : Single) : Single :=
  withOperand x (ofDouble (f x.toDouble))

def sin : Single → Single := elementary Float.sin

def cos : Single → Single := elementary Float.cos

def tan : Single → Single := elementary Float.tan

def sinh : Single → Single := elementary Float.sinh

def cosh : Single → Single := elementary Float.cosh

def tanh : Single → Single := elementary Float.tanh

def asin : Single → Single := elementary Float.asin

def acos : Single → Single := elementary Float.acos

def atan : Single → Single := elementary Float.atan

end Single
end FieldScript

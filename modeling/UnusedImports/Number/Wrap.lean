/-! Sums and products of 64 bits wrap around; spans of time are cut to the nearest that fits. -/

namespace UnusedImports.Integer

def least : Int := -0x8000000000000000

def greatest : Int := 0x7fffffffffffffff

/-- The number of 64 bits with sign that differs from a number by a multiple of the 64th power of
two. -/
def wrap (n : Int) : Int := n.bmod 0x10000000000000000

def clamp (n : Int) : Int := max least (min greatest n)

end UnusedImports.Integer

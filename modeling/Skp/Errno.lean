import Mathlib

/-! The error numbers the library's functions return, negated as they return them. -/
namespace Skp
set_option autoImplicit false

def ePERM : ℤ := -1
def eNOENT : ℤ := -2
def eINTR : ℤ := -4
def eNOMEM : ℤ := -12
def eFAULT : ℤ := -14
def eBUSY : ℤ := -16
def eEXIST : ℤ := -17
def eNODEV : ℤ := -19
def eINVAL : ℤ := -22
def eMFILE : ℤ := -24
def eNOSPC : ℤ := -28
def eRANGE : ℤ := -34
def eNODATA : ℤ := -61
def eTIMEDOUT : ℤ := -110

end Skp

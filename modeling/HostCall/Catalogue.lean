import HostCall.HostFn
import HostCall.NameMap

/-! A catalogue of ready-made host functions, at least one for each kind of value. Integer
arithmetic wraps at its width. Functions with an `out` parameter say with it where their result is
to be placed. -/

namespace HostCall.Catalogue

open HostFn

private abbrev i8 : HostType := .mem (.scalar .i8)
private abbrev i16 : HostType := .mem (.scalar .i16)
private abbrev i32 : HostType := .mem (.scalar .i32)
private abbrev i64 : HostType := .mem (.scalar .i64)
private abbrev u8 : HostType := .mem (.scalar .u8)
private abbrev u16 : HostType := .mem (.scalar .u16)
private abbrev u32 : HostType := .mem (.scalar .u32)
private abbrev u64 : HostType := .mem (.scalar .u64)
private abbrev f32 : HostType := .mem (.scalar .f32)
private abbrev f64 : HostType := .mem (.scalar .f64)
private abbrev bool : HostType := .mem .bool
private abbrev string : HostType := .mem .string
private abbrev text : HostType := .mem .text
private abbrev bytes : HostType := .mem .bytes
private abbrev counterRef : HostType := .handle .counter

def byteLength (s : String) : Nat := (Utf8.encode s.toList).length

def sortNames (names : List String) : List String :=
  names.mergeSort fun a b => !nameBefore b a

/-- `100 / d` at `out`. -/
def divide (out d : UInt32) : ResultAt String UInt32 :=
  ⟨out, Addr.advance out 16, if d = 0 then .error "division by zero" else .ok (100 / d)⟩

def floatSub (a b : F64) : F64 := ⟨(Float.ofBits a.bits - Float.ofBits b.bits).toBits⟩

def floatAdd (a b : F64) : F64 := ⟨(Float.ofBits a.bits + Float.ofBits b.bits).toBits⟩

def floatMul32 (a b : F32) : F32 := ⟨(Float32.ofBits a.bits * Float32.ofBits b.bits).toBits⟩

/-- Every number times its position, summed. -/
def weightedSum (xs : List Int64) : Int64 :=
  (xs.zipIdx 1).foldl (fun sum x => sum + x.1 * Int64.ofNat x.2) 0

def numbers : List (String × HostFn Unit) :=
  [("answer", ofPure [] i64 fun _ => 13),
   ("nop", ofPure [] .unit fun _ => ()),
   ("double", ofPure [i32] i32 fun (x, _) => x * 2),
   ("sub_i32", ofPure [i32, i32] i32 fun (a, b, _) => a - b),
   ("sub_i64", ofPure [i64, i64] i64 fun (a, b, _) => a - b),
   ("neg_i8", ofPure [i8] i8 fun (a, _) => -a),
   ("not", ofPure [bool] bool fun (b, _) => !b),
   ("swap", ofPure [.pair u32 u64] (.pair u64 u32) fun (p, _) => (p.2, p.1)),
   ("minmax", ofPure [i64, i64] (.pair i64 i64) fun (a, b, _) => if a ≤ b then (a, b) else (b, a)),
   ("sub_f64", ofPure [f64, f64] f64 fun (a, b, _) => floatSub a b),
   ("mul_f32", ofPure [f32, f32] f32 fun (a, b, _) => floatMul32 a b),
   ("select_f64", ofPure [bool, f64, f64] f64 fun (c, a, b, _) => if c then a else b),
   ("flip64", ofPure [.complex64] .complex64 fun (z, _) => ⟨z.im, z.re⟩),
   ("add_c128", ofPure [.complex128, .complex128] .complex128 fun (z, w, _) =>
      ⟨floatAdd z.re w.re, floatAdd z.im w.im⟩),
   ("later", ofPure [.duration, u32] .duration fun (d, ms, _) => d.extend ms.toNat),
   ("half", ofPure [.time, u32] .time fun (t, ms, _) => (t.back? ms.toNat).getD t),
   ("weigh", ofPure
      [u8, u16, u32, u64, i8, i16, i32, i64, u8, u16, u32, u64, i8, i16, i32, i64, bool, f64] f64
      fun (a, b, c, d, e, f, g, h, i, j, k, l, m, n, o, p, plus, x, _) =>
        let sum := weightedSum
          [Int64.ofNat a.toNat, Int64.ofNat b.toNat, Int64.ofNat c.toNat, d.toInt64,
            e.toInt64, f.toInt64, g.toInt64, h,
            Int64.ofNat i.toNat, Int64.ofNat j.toNat, Int64.ofNat k.toNat, l.toInt64,
            m.toInt64, n.toInt64, o.toInt64, p]
        let sum : F64 := ⟨sum.toFloat.toBits⟩
        if plus then floatAdd sum x else floatSub sum x)]

def texts : List (String × HostFn Unit) :=
  [("strlen", ofPure [string] u32 fun (s, _) => UInt32.ofNat (byteLength s)),
   ("strlen_pad", ofPure [string, u32] u32 fun (s, pad, _) => UInt32.ofNat (byteLength s) + pad),
   ("greet", ofPure [string, u32] text fun (name, out, _) => ⟨out, "hi " ++ name⟩),
   ("repeat", ofPure [u32, u32] text fun (out, n, _) =>
      ⟨out, String.join (List.replicate (n.toNat % 64) "ab")⟩),
   ("concat", ofPure [string, string, u32] text fun (a, b, out, _) => ⟨out, a ++ b⟩),
   ("reverse", ofPure [bytes] bytes fun (bs, _) => ⟨bs.offset, bs.raw.reverse⟩),
   ("fill", ofPure [u32, u8, u16] bytes fun (out, b, n, _) =>
      ⟨out, List.replicate (n.toNat % 1024) b⟩)]

def lists : List (String × HostFn Unit) :=
  [("div", ofPure [u32, u32] (.mem (.result (.scalar .u32) .string)) fun (out, d, _) =>
      divide out d),
   ("sum", ofPure [.mem (.list (.scalar .u32))] u64 fun (xs, _) =>
      xs.raw.foldl (fun sum (x : UInt32) => sum + x.toUInt64) 0),
   ("widen", ofPure [.mem (.list (.scalar .i16)), u32] (.mem (.list (.scalar .i64)))
      fun (xs, out, _) => ⟨out, xs.raw.map Int16.toInt64⟩),
   ("sort", ofPure [.mem (.list .string)] (.mem (.list .string)) fun (xs, _) =>
      ⟨xs.offset, sortNames xs.raw⟩),
   ("words", ofPure [string, u32, u32] (.indirectList .string) fun (s, out, data, _) =>
      ⟨out, data, s.splitOn " "⟩),
   ("join", ofPure [.indirectList .string, u32] text fun (xs, out, _) =>
      ⟨out, ",".intercalate xs.raw⟩)]

def handles : List (String × HostFn Unit) :=
  [("gate", ofPure [.context, u32] u32 fun (context, x, _) => if context.cancelled then 0 else x),
   ("cancel", ofNative [.context] .unit fun _ => ⟨(), (), true⟩),
   ("open", ofPure [] counterRef fun _ => ⟨0, ⟨"visits", 0⟩⟩),
   ("hit", ofPure [counterRef] counterRef fun (c, _) =>
      { c with raw := { c.raw with hits := c.raw.hits + 1 } }),
   ("hits", ofPure [counterRef] u32 fun (c, _) => c.raw.hits),
   ("rename", ofPure [counterRef, string] counterRef fun (c, name, _) =>
      { c with raw := { c.raw with name := name } }),
   ("name", ofPure [counterRef, u32] text fun (c, out, _) => ⟨out, c.raw.name⟩),
   ("fork", ofPure [counterRef] counterRef fun (c, _) => { c with id := 0 })]

def all : List (String × HostFn Unit) := numbers ++ texts ++ lists ++ handles

def find? (name : String) : Option (HostFn Unit) := all.lookup name

/-- Three functions to try a module out with, each under its name there. -/
def demo : List (String × HostFn Unit) :=
  [("sub", "sub_i32"), ("strlen", "strlen"), ("greet", "greet")].filterMap fun (name, fn) =>
    (find? fn).map (name, ·)

end HostCall.Catalogue

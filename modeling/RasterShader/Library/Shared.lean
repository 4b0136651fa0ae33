/-!
# Source of the shared library module

Declarations of the functions that every kind of program can call. They have no bodies: code
generation knows each of them by name.
-/

namespace RasterShader

namespace LibrarySource

/-- Functions available to every kind of program, line by line. -/
def shared : List String :=
  ["// Intrinsics available to every program kind.",
    "",
    "$pure $genType radians($genType degrees);",
    "$pure $genHType radians($genHType degrees);",
    "$pure $genType degrees($genType radians);",
    "$pure $genHType degrees($genHType radians);",
    "",
    "$pure $genType sin($genType angle);",
    "$pure $genHType sin($genHType angle);",
    "$pure $genType cos($genType angle);",
    "$pure $genHType cos($genHType angle);",
    "$pure $genType tan($genType angle);",
    "$pure $genHType tan($genHType angle);",
    "$pure $genType asin($genType x);",
    "$pure $genHType asin($genHType x);",
    "$pure $genType acos($genType x);",
    "$pure $genHType acos($genHType x);",
    "$pure $genType atan($genType y, $genType x);",
    "$pure $genHType atan($genHType y, $genHType x);",
    "$pure $genType atan($genType y_over_x);",
    "$pure $genHType atan($genHType y_over_x);",
    "",
    "$pure $genType pow($genType x, $genType y);",
    "$pure $genHType pow($genHType x, $genHType y);",
    "$pure $genType exp($genType x);",
    "$pure $genHType exp($genHType x);",
    "$pure $genType log($genType x);",
    "$pure $genHType log($genHType x);",
    "$pure $genType exp2($genType x);",
    "$pure $genHType exp2($genHType x);",
    "$pure $genType log2($genType x);",
    "$pure $genHType log2($genHType x);",
    "$pure $genType sqrt($genType x);",
    "$pure $genHType sqrt($genHType x);",
    "$pure $genType inversesqrt($genType x);",
    "$pure $genHType inversesqrt($genHType x);",
    "",
    "$pure $genType abs($genType x);",
    "$pure $genHType abs($genHType x);",
    "$pure $genIType abs($genIType x);",
    "$pure $genType sign($genType x);",
    "$pure $genHType sign($genHType x);",
    "$pure $genIType sign($genIType x);",
    "$pure $genType floor($genType x);",
    "$pure $genHType floor($genHType x);",
    "$pure $genType ceil($genType x);",
    "$pure $genHType ceil($genHType x);",
    "$pure $genType fract($genType x);",
    "$pure $genHType fract($genHType x);",
    "$pure $genType mod($genType x, float y);",
    "$pure $genType mod($genType x, $genType y);",
    "$pure $genHType mod($genHType x, half y);",
    "$pure $genHType mod($genHType x, $genHType y);",
    "",
    "$pure $genType min($genType x, $genType y);",
    "$pure $genType min($genType x, float y);",
    "$pure $genHType min($genHType x, $genHType y);",
    "$pure $genHType min($genHType x, half y);",
    "$pure $genIType min($genIType x, $genIType y);",
    "$pure $genIType min($genIType x, int y);",
    "$pure $genUType min($genUType x, $genUType y);",
    "$pure $genUType min($genUType x, uint y);",
    "$pure $genType max($genType x, $genType y);",
    "$pure $genType max($genType x, float y);",
    "$pure $genHType max($genHType x, $genHType y);",
    "$pure $genHType max($genHType x, half y);",
    "$pure $genIType max($genIType x, $genIType y);",
    "$pure $genIType max($genIType x, int y);",
    "$pure $genUType max($genUType x, $genUType y);",
    "$pure $genUType max($genUType x, uint y);",
    "$pure $genType clamp($genType x, $genType minVal, $genType maxVal);",
    "$pure $genType clamp($genType x, float minVal, float maxVal);",
    "$pure $genHType clamp($genHType x, $genHType minVal, $genHType maxVal);",
    "$pure $genHType clamp($genHType x, half minVal, half maxVal);",
    "$pure $genIType clamp($genIType x, $genIType minVal, $genIType maxVal);",
    "$pure $genIType clamp($genIType x, int minVal, int maxVal);",
    "$pure $genUType clamp($genUType x, $genUType minVal, $genUType maxVal);",
    "$pure $genUType clamp($genUType x, uint minVal, uint maxVal);",
    "$pure $genType saturate($genType x);",
    "$pure $genHType saturate($genHType x);",
    "",
    "$pure $genType mix($genType x, $genType y, float a);",
    "$pure $genType mix($genType x, $genType y, $genType a);",
    "$pure $genHType mix($genHType x, $genHType y, half a);",
    "$pure $genHType mix($genHType x, $genHType y, $genHType a);",
    "$pure $genType mix($genType x, $genType y, $genBType a);",
    "$pure $genHType mix($genHType x, $genHType y, $genBType a);",
    "$pure $genIType mix($genIType x, $genIType y, $genBType a);",
    "$pure $genBType mix($genBType x, $genBType y, $genBType a);",
    "$pure $genType step($genType edge, $genType x);",
    "$pure $genType step(float edge, $genType x);",
    "$pure $genHType step($genHType edge, $genHType x);",
    "$pure $genHType step(half edge, $genHType x);",
    "$pure $genType smoothstep($genType edge0, $genType edge1, $genType x);",
    "$pure $genType smoothstep(float edge0, float edge1, $genType x);",
    "$pure $genHType smoothstep($genHType edge0, $genHType edge1, $genHType x);",
    "$pure $genHType smoothstep(half edge0, half edge1, $genHType x);",
    "",
    "$pure float length($genType x);",
    "$pure half length($genHType x);",
    "$pure float distance($genType p0, $genType p1);",
    "$pure half distance($genHType p0, $genHType p1);",
    "$pure float dot($genType x, $genType y);",
    "$pure half dot($genHType x, $genHType y);",
    "$pure float3 cross(float3 x, float3 y);",
    "$pure half3 cross(half3 x, half3 y);",
    "$pure $genType normalize($genType x);",
    "$pure $genHType normalize($genHType x);",
    "$pure $genType faceforward($genType N, $genType I, $genType Nref);",
    "$pure $genHType faceforward($genHType N, $genHType I, $genHType Nref);",
    "$pure $genType reflect($genType I, $genType N);",
    "$pure $genHType reflect($genHType I, $genHType N);",
    "$pure $genType refract($genType I, $genType N, float eta);",
    "$pure $genHType refract($genHType I, $genHType N, half eta);",
    "",
    "$pure $mat matrixCompMult($mat x, $mat y);",
    "$pure $hmat matrixCompMult($hmat x, $hmat y);",
    "$pure $squareMat transpose($squareMat m);",
    "$pure $squareHMat transpose($squareHMat m);",
    "$pure float3x2 transpose(float2x3 m);",
    "$pure float2x3 transpose(float3x2 m);",
    "$pure float4x2 transpose(float2x4 m);",
    "$pure float2x4 transpose(float4x2 m);",
    "$pure float4x3 transpose(float3x4 m);",
    "$pure float3x4 transpose(float4x3 m);",
    "$pure half3x2 transpose(half2x3 m);",
    "$pure half2x3 transpose(half3x2 m);",
    "$pure half4x2 transpose(half2x4 m);",
    "$pure half2x4 transpose(half4x2 m);",
    "$pure half4x3 transpose(half3x4 m);",
    "$pure half3x4 transpose(half4x3 m);",
    "$pure float determinant($squareMat m);",
    "$pure half determinant($squareHMat m);",
    "$pure $squareMat inverse($squareMat m);",
    "$pure $squareHMat inverse($squareHMat m);",
    "",
    "$pure $bvec lessThan($vec x, $vec y);",
    "$pure $bvec lessThan($hvec x, $hvec y);",
    "$pure $bvec lessThan($ivec x, $ivec y);",
    "$pure $bvec lessThan($uvec x, $uvec y);",
    "$pure $bvec lessThanEqual($vec x, $vec y);",
    "$pure $bvec lessThanEqual($hvec x, $hvec y);",
    "$pure $bvec lessThanEqual($ivec x, $ivec y);",
    "$pure $bvec lessThanEqual($uvec x, $uvec y);",
    "$pure $bvec greaterThan($vec x, $vec y);",
    "$pure $bvec greaterThan($hvec x, $hvec y);",
    "$pure $bvec greaterThan($ivec x, $ivec y);",
    "$pure $bvec greaterThan($uvec x, $uvec y);",
    "$pure $bvec greaterThanEqual($vec x, $vec y);",
    "$pure $bvec greaterThanEqual($hvec x, $hvec y);",
    "$pure $bvec greaterThanEqual($ivec x, $ivec y);",
    "$pure $bvec greaterThanEqual($uvec x, $uvec y);",
    "$pure $bvec equal($vec x, $vec y);",
    "$pure $bvec equal($hvec x, $hvec y);",
    "$pure $bvec equal($ivec x, $ivec y);",
    "$pure $bvec equal($uvec x, $uvec y);",
    "$pure $bvec equal($bvec x, $bvec y);",
    "$pure $bvec notEqual($vec x, $vec y);",
    "$pure $bvec notEqual($hvec x, $hvec y);",
    "$pure $bvec notEqual($ivec x, $ivec y);",
    "$pure $bvec notEqual($uvec x, $uvec y);",
    "$pure $bvec notEqual($bvec x, $bvec y);",
    "$pure bool any($bvec x);",
    "$pure bool all($bvec x);",
    "$pure $bvec not($bvec x);"]

end LibrarySource

end RasterShader

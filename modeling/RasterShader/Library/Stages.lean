/-!
# Sources of the library modules for single kinds of programs

Inputs and outputs of stages, blending and color helpers.
-/

namespace RasterShader

namespace LibrarySource

/-- Helpers shared by all stages, line by line. -/
def gpu : List String :=
  ["// Helpers shared by the GPU stages.",
    "",
    "$pure half4 blend_clear(half4 src, half4 dst) \x7b return half4(0); \x7d",
    "$pure half4 blend_src(half4 src, half4 dst) \x7b return src; \x7d",
    "$pure half4 blend_dst(half4 src, half4 dst) \x7b return dst; \x7d",
    "$pure half4 blend_src_over(half4 src, half4 dst) \x7b return src + (1 - src.a) * dst; \x7d",
    "$pure half4 blend_dst_over(half4 src, half4 dst) \x7b return (1 - dst.a) * src + dst; \x7d",
    "$pure half4 blend_src_in(half4 src, half4 dst) \x7b return src * dst.a; \x7d",
    "$pure half4 blend_dst_in(half4 src, half4 dst) \x7b return dst * src.a; \x7d",
    "$pure half4 blend_modulate(half4 src, half4 dst) \x7b return src * dst; \x7d",
    "$pure half4 blend_screen(half4 src, half4 dst) \x7b return src + (1 - src) * dst; \x7d"]

/-- Inputs and outputs of vertex stages, line by line. -/
def vertex : List String :=
  ["// Vertex stage inputs and outputs.",
    "",
    "layout(builtin=0) out float4 sk_Position;",
    "layout(builtin=1) out float sk_PointSize;",
    "layout(builtin=42) in int sk_VertexID;",
    "layout(builtin=43) in int sk_InstanceID;"]

/-- Inputs and outputs of fragment stages, line by line. -/
def fragment : List String :=
  ["// Fragment stage inputs and outputs.",
    "",
    "layout(builtin=15) in float4 sk_FragCoord;",
    "layout(builtin=17) in bool sk_Clockwise;",
    "layout(location=0, index=0, builtin=10001) out half4 sk_FragColor;"]

/-- Inputs of compute stages, line by line. -/
def compute : List String :=
  ["// Compute stage invocation identifiers.",
    "",
    "layout(builtin=24) in uint3 sk_NumWorkgroups;",
    "layout(builtin=26) in uint3 sk_WorkgroupID;",
    "layout(builtin=27) in uint3 sk_LocalInvocationID;",
    "layout(builtin=28) in uint3 sk_GlobalInvocationID;",
    "layout(builtin=29) in uint sk_LocalInvocationIndex;"]

/-- Helpers of Graphite vertex stages, line by line. -/
def graphiteVertex : List String :=
  ["// Vertex helpers for the Graphite renderer.",
    "",
    "$pure float4 sk_to_device(float2 position, float4 rtAdjust) \x7b",
    "    return float4(position * rtAdjust.xz + rtAdjust.yw, 0, 1);",
    "\x7d"]

/-- Helpers of Graphite fragment stages, line by line. -/
def graphiteFragment : List String :=
  ["// Fragment helpers for the Graphite renderer.",
    "",
    "$pure half4 sk_premul_alpha(half4 color) \x7b",
    "    return half4(color.rgb * color.a, color.a);",
    "\x7d",
    "",
    "$pure half4 sk_porter_duff_blend(half4 src, half4 dst, half4 coeffs) \x7b",
    "    return src * (coeffs.x + coeffs.z * dst.a) + dst * (coeffs.y + coeffs.w * src.a);",
    "\x7d"]

/-- Functions visible to runtime effects, line by line. -/
def effects : List String :=
  ["// Functions visible to runtime effects.",
    "",
    "$pure half4 unpremul(half4 color) \x7b",
    "    return half4(color.rgb / max(color.a, 0.0001), color.a);",
    "\x7d",
    "",
    "$pure float4 unpremul(float4 color) \x7b",
    "    return float4(color.rgb / max(color.a, 0.0001), color.a);",
    "\x7d",
    "",
    "half3 toLinearSrgb(half3 color);",
    "half3 fromLinearSrgb(half3 color);"]

/-- Inputs of runtime shaders, line by line. -/
def runtimeShader : List String :=
  ["// Runtime shaders may read the device coordinate.",
    "",
    "layout(builtin=15) float4 sk_FragCoord;"]

end LibrarySource

end RasterShader

/-
  Words that a generated name must not be: words of the language, names of
  intrinsic functions, and names of types.
-/
import Shading.ValueType.Registry

namespace Shading.Keyword

/-- Words and object types of the shading language. -/
def language : List String :=
  ["AppendStructuredBuffer", "asm", "asm_fragment", "BlendState", "bool", "break", "Buffer",
    "ByteAddressBuffer", "case", "cbuffer", "centroid", "class", "column_major", "compile",
    "compile_fragment", "CompileShader", "const", "continue", "ComputeShader",
    "ConsumeStructuredBuffer", "default", "DepthStencilState", "DepthStencilView", "discard",
    "do", "double", "DomainShader", "dword", "else", "export", "extern", "false", "float", "for",
    "fxgroup", "GeometryShader", "groupshared", "half", "Hullshader", "if", "in", "inline",
    "inout", "InputPatch", "int", "interface", "line", "lineadj", "linear", "LineStream",
    "matrix", "min16float", "min10float", "min16int", "min12int", "min16uint", "namespace",
    "nointerpolation", "noperspective", "NULL", "out", "OutputPatch", "packoffset", "pass",
    "pixelfragment", "PixelShader", "point", "PointStream", "precise", "RasterizerState",
    "RenderTargetView", "return", "register", "row_major", "RWBuffer", "RWByteAddressBuffer",
    "RWStructuredBuffer", "RWTexture1D", "RWTexture1DArray", "RWTexture2D", "RWTexture2DArray",
    "RWTexture3D", "sample", "linearSampler", "SamplerState", "SamplerComparisonState", "shared",
    "snorm", "stateblock", "stateblock_state", "static", "string", "struct", "switch",
    "StructuredBuffer", "tbuffer", "technique", "technique10", "technique11", "texture",
    "Texture1D", "Texture1DArray", "Texture2D", "Texture2DArray", "Texture2DMS",
    "Texture2DMSArray", "Texture3D", "TextureCube", "TextureCubeArray", "true", "typedef",
    "triangle", "triangleadj", "TriangleStream", "uint", "uniform", "unorm", "unsigned",
    "vector", "vertexfragment", "VertexShader", "void", "volatile", "while"]

/-- Words that the language reserves for later. -/
def reserved : List String :=
  ["auto", "catch", "char", "const_cast", "delete", "dynamic_cast", "enum", "explicit", "friend",
    "goto", "long", "mutable", "new", "operator", "private", "protected", "public",
    "reinterpret_cast", "short", "signed", "sizeof", "static_cast", "template", "this", "throw",
    "try", "typename", "union", "using", "virtual"]

/-- Names of intrinsic functions. -/
def intrinsics : List String :=
  ["abs", "acos", "all", "any", "asdouble", "asfloat", "asin", "asint", "asuint", "atan",
    "atan2", "ceil", "clamp", "clip", "cos", "cosh", "cross", "ddx", "ddx_coarse", "ddx_fine",
    "ddy", "ddy_coarse", "ddy_fine", "degrees", "distance", "dot", "exp", "exp2", "floor",
    "fmod", "frac", "fwidth", "ldexp", "length", "lerp", "lit", "log", "log10", "log2", "max",
    "min", "mul", "normalize", "pow", "radians", "rcp", "reflect", "refract", "round", "rsqrt",
    "saturate", "sign", "sin", "sinh", "smoothstep", "sqrt", "step", "tan", "tanh", "trunc"]

/-- Scalar types of reduced precision; the names of their vectors and matrices
    are taken too. -/
def reduced : List String :=
  ["min10float", "min16float", "min12int", "min16int", "min16uint"]

/-- The names of vectors and matrices with components of type `base`. -/
def composites (base : String) : List String :=
  [2, 3, 4].map (fun size => base ++ toString size) ++
    [1, 2, 3, 4].flatMap fun rows =>
      [1, 2, 3, 4].map fun cols => base ++ toString rows ++ "x" ++ toString cols

/-- All words that a generated name must not be, where the types are those of
    the registry.  A word may stand more than once. -/
def all (r : TypeRegistry) : List String :=
  language ++ reserved ++ intrinsics ++ r.typeNames ++ reduced.flatMap composites

end Shading.Keyword

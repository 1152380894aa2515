import MlkemSelkie.Theorems.Conformance
import MlkemSelkie.Theorems.Correctness
import MlkemSelkie.Theorems.Parsing
import MlkemSelkie.Theorems.NoWrap
import MlkemSelkie.Theorems.Serialization
import MlkemSelkie.Theorems.Caches
import MlkemSelkie.Theorems.Codec
import MlkemSelkie.Theorems.Transforms
import MlkemSelkie.Theorems.Field
import MlkemSelkie.Theorems.Storage
import MlkemSelkie.Theorems.Products
import MlkemSelkie.Theorems.Accumulation
import MlkemSelkie.Theorems.Assembly
import MlkemSelkie.Theorems.Packing
import MlkemSelkie.Theorems.Sampling
import MlkemSelkie.Theorems.Expansion
import MlkemSelkie.Theorems.AppleTransform
import MlkemSelkie.Theorems.Backends
import MlkemSelkie.Theorems.Distributions
import MlkemSelkie.Theorems.Failures
import MlkemSelkie.Theorems.KeyEncoding
import MlkemSelkie.Theorems.Ranges
import MlkemSelkie.Theorems.AlgebraicProperties
import MlkemSelkie.Theorems.Rigidity
import MlkemSelkie.Theorems.Panics
